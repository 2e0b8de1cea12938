import NewtonKrylov.Proofs.Newton.Outcome
import NewtonKrylov.Proofs.Newton.Procedure

/-!
# The vectors that a run makes

A run makes five scratch vectors, a direction unless it is given one, and then the work vectors that its
solver asks for. `Newton.run_allocates`: whatever names a solver asks for, in every session that the run
passes through from then on the vectors made since are the work vectors, one for each name that has been
asked for (`Newton.Allotted`), and every later request for a name is answered by the same vector. With
GMRES the names come in one order, so there is a bound on their number.

What is kept is only ever extended, so the entries of an earlier session are a prefix of those of a
later one (`Conduct.keeping`).
-/

namespace NewtonKrylov

variable {V S R σ : Type}

open Run.Passage (action)

/-! ## Requests -/

section Requests

variable {K : Backend S V} {name : String} {r : Ref} {s s' : Session V S R σ}

theorem Buffers.find?_of_prefix {b b' : Buffers} (h : b.entries <+: b'.entries)
    (hfind : b.find? name = some r) : b'.find? name = some r := by
  obtain ⟨more, hmore⟩ := h
  rw [find?, ← hmore, List.lookup_append, show b.entries.lookup name = some r from hfind]
  rfl

theorem Run.keptAs_eq_ok (h : Run.keptAs K.new name s = .ok r s') :
    s.buffers.find? name = some r ∧ s' = s ∨
      s.buffers.find? name = none ∧ r = s.store.next ∧
        s' = s.keep name (K.zero ()) := by
  cases hfind : s.buffers.find? name with
  | some r' =>
    rw [Run.keptAs_run_of_some hfind] at h
    obtain ⟨rfl, rfl⟩ := EStateM.Result.ok.inj h
    exact .inl ⟨rfl, rfl⟩
  | none =>
    rw [Run.keptAs_run_of_none hfind] at h
    obtain ⟨rfl, rfl⟩ := EStateM.Result.ok.inj h
    exact .inr ⟨rfl, rfl, rfl⟩

theorem Run.keptAs_find? (h : Run.keptAs K.new name s = .ok r s') :
    s'.buffers.find? name = some r := by
  rcases Run.keptAs_eq_ok h with ⟨hfind, rfl⟩ | ⟨hfind, rfl, rfl⟩
  · exact hfind
  · exact Buffers.find?_insert_self hfind _

theorem Session.names_keep (v : V) :
    (s.keep name v).buffers.names = s.buffers.names ++ [name] :=
  s.buffers.names_insert name s.store.next

end Requests

/-! ## What is kept -/

/-- The vectors made since `s₀` are those that are kept, in the order of the first requests. -/
structure Session.Kept (s₀ s : Session V S R σ) : Prop where
  names_eq : s.store.names = s₀.store.names ++ s.buffers.names
  nodup : s.buffers.names.Nodup
  indices_eq : s.buffers.entries.map (Ref.index ∘ Prod.snd) =
    List.range' s₀.store.size s.buffers.entries.length

namespace Session.Kept

variable {s₀ s : Session V S R σ}

theorem of_no_buffers (h : s.buffers = {}) : s.Kept s := by
  refine ⟨?_, ?_, ?_⟩
  all_goals simp [h, Buffers.names]

theorem size_eq (h : s₀.Kept s) : s.store.size = s₀.store.size + s.buffers.entries.length := by
  have hlength := congrArg List.length h.names_eq
  simpa [Store.names, Buffers.names, Store.size] using hlength

theorem keep (h : s₀.Kept s) {name : String} (hname : name ∉ s.buffers.names) (v : V) :
    s₀.Kept (s.keep name v) where
  names_eq := by
    simp only [Session.keep, Session.push, Store.names_push, h.names_eq, Buffers.names, Buffers.insert,
      List.map_append, List.append_assoc, List.map_cons, List.map_nil]
  nodup := Buffers.names_insert_nodup h.nodup hname s.store.next
  indices_eq := by
    simp [Session.keep, Buffers.insert, List.range'_concat, h.indices_eq, Store.next, h.size_eq]

theorem refs_nodup (h : s₀.Kept s) : (s.buffers.entries.map Prod.snd).Nodup := by
  refine List.Nodup.of_map Ref.index ?_
  rw [List.map_map, h.indices_eq]
  exact List.nodup_range'

theorem not_valid (h : s₀.Kept s) {e : String × Ref} (he : e ∈ s.buffers.entries) :
    ¬ s₀.store.Valid e.2 := by
  have hmem : e.2.index ∈ List.range' s₀.store.size s.buffers.entries.length :=
    h.indices_eq ▸ List.mem_map_of_mem he
  exact Nat.not_lt.mpr (List.mem_range'_1.mp hmem).1

end Session.Kept

variable [Inhabited V]

/-- Since `s₀` only kept vectors are made, and the names asked for are always allowed. -/
def Conduct.keeping (s₀ : Session V S R σ) (Allow : List String → Prop) : Conduct V S R σ where
  Holds s := s₀.Kept s ∧ Allow s.buffers.names
  Later s s' := s.buffers.entries <+: s'.buffers.entries
  MayAsk s name := name ∈ s.buffers.names ∨ Allow (s.buffers.names ++ [name])
  Asked s name := name ∈ s.buffers.names
  refl _ := List.prefix_rfl
  trans := List.IsPrefix.trans
  asked_later h hextends := (hextends.map Prod.fst).subset h
  write h _ _ := by
    refine ⟨⟨⟨?_, h.1.nodup, ?_⟩, h.2⟩, List.prefix_rfl⟩
    · exact Store.names_write.trans h.1.names_eq
    · exact h.1.indices_eq
  other h hstore hbuffers := by
    rw [hbuffers]
    refine ⟨⟨⟨?_, ?_, ?_⟩, h.2⟩, List.prefix_rfl⟩
    · rw [hstore, hbuffers]
      exact h.1.names_eq
    · rw [hbuffers]
      exact h.1.nodup
    · rw [hbuffers]
      exact h.1.indices_eq

namespace Conduct

variable {s₀ s : Session V S R σ} {Allow : List String → Prop}

theorem keeping_free : (keeping s₀ fun _ => True : Conduct V S R σ).Free :=
  ⟨rfl, rfl, fun _ _ => .inr trivial⟩

theorem keeping_grants (K : Backend S V) {name : String} (hs : (keeping s₀ Allow).Holds s)
    (hname : (keeping s₀ Allow).MayAsk s name) :
    (action (Run.keptAs K.new name)).Obeys (keeping s₀ Allow)
      (fun r s' => r ∈ (keeping s₀ Allow).writable ∧ (keeping s₀ Allow).Asked s' name) s := by
  refine hs.keptAs (fun r hfind => ?_) fun hfind => ?_
  · exact ⟨trivial, List.mem_map_of_mem (Buffers.mem_of_find? hfind)⟩
  · have hnot := Buffers.not_mem_names hfind
    refine ⟨⟨trivial, ?_⟩, ⟨hs.1.keep hnot _, ?_⟩, List.prefix_append _ _⟩
    · show name ∈ (s.keep name (K.zero ())).buffers.names
      rw [Session.names_keep]
      exact List.mem_append_right _ (List.mem_singleton_self name)
    · rw [Session.names_keep]
      exact hname.resolve_left hnot

end Conduct

/-! ## The order of GMRES -/

namespace Gmres

/-- The names that GMRES with restart `m` asks for, in order. -/
def names (m : Nat) : List String := "gmres_r" :: "gmres_w" :: (List.range (m + 1)).map basisName

theorem names_nodup (m : Nat) : (names m).Nodup := by
  have hbasis : ((List.range (m + 1)).map basisName).Nodup :=
    List.nodup_range.map fun _ _ h => basisName_injective h
  simp only [names, List.nodup_cons, List.mem_cons, List.mem_map, not_or]
  refine ⟨⟨by decide, ?_⟩, ?_, hbasis⟩
  · rintro ⟨j, -, hj⟩
    exact (basisName_ne j).1 hj
  · rintro ⟨j, -, hj⟩
    exact (basisName_ne j).2 hj

theorem names_head {m : Nat} {name : String} (h : name ∈ names m) :
    name.toList.head? = some 'g' := by
  simp only [names, List.mem_cons, List.mem_map] at h
  rcases h with rfl | rfl | ⟨j, -, rfl⟩
  · rfl
  · rfl
  · simp [basisName, String.toList_append]

theorem names_basis {m j : Nat} (hj : j ≤ m) : (names m)[j + 2]? = some (basisName j) := by
  have hrange : (List.range (m + 1))[j]? = some j :=
    List.getElem?_range (Nat.lt_succ_of_le hj)
  simp [names, hrange]

end Gmres

theorem mem_or_prefix_of_next {order names : List String} (hnodup : order.Nodup)
    (hextends : names <+: order) {i : Nat} {next : String} (hi : order[i]? = some next)
    (hasked : ∀ j last, j + 1 = i → order[j]? = some last → last ∈ names) :
    next ∈ names ∨ names ++ [next] <+: order := by
  obtain ⟨more, rfl⟩ := hextends
  rcases Nat.lt_trichotomy i names.length with hlt | rfl | hgt
  · rw [List.getElem?_append_left hlt] at hi
    exact .inl (List.mem_of_getElem? hi)
  · rw [List.getElem?_append_right le_rfl, Nat.sub_self] at hi
    obtain ⟨rest, rfl⟩ := List.head?_eq_some_iff.mp (List.head?_eq_getElem? ▸ hi)
    exact .inr ⟨rest, by simp⟩
  · obtain ⟨j, rfl⟩ := Nat.exists_eq_succ_of_ne_zero (Nat.ne_zero_of_lt hgt)
    have hlength : j < (names ++ more).length :=
      Nat.lt_of_succ_lt (List.getElem?_eq_some_iff.mp hi).1
    have hlast := hasked j _ rfl (List.getElem?_eq_getElem hlength)
    have hmore : (names ++ more)[j] ∈ more := by
      rw [List.getElem_append_right (Nat.le_of_lt_succ hgt)]
      exact List.getElem_mem _
    exact absurd hmore (List.disjoint_of_nodup_append hnodup hlast)

/-- The order of GMRES is kept to. -/
theorem Gmres.ordered_keeping {g : Gmres S R} {m : Nat} (hrestart : g.restart = .ok m)
    (s₀ : Session V S R σ) : g.Ordered (Conduct.keeping s₀ (· <+: names m)) := by
  have hnext : ∀ {s : Session V S R σ} {i next}, (Conduct.keeping s₀ (· <+: names m)).Holds s →
      (names m)[i]? = some next →
      (∀ j last, j + 1 = i → (names m)[j]? = some last → last ∈ s.buffers.names) →
      (Conduct.keeping s₀ (· <+: names m)).MayAsk s next := fun hs hi hasked =>
    mem_or_prefix_of_next (names_nodup m) hs.2 hi hasked
  refine ⟨fun hs => ?_, fun hs hasked => ?_, fun hs hasked => ?_, fun {m' j s} hm' hj hs hasked => ?_⟩
  · exact hnext hs (i := 0) rfl nofun
  · refine hnext hs (i := 1) rfl fun j last hj hlast => ?_
    obtain rfl := Nat.succ.inj hj
    exact Option.some.inj hlast ▸ hasked
  · refine hnext hs (names_basis (Nat.zero_le m)) fun j last hj hlast => ?_
    obtain rfl := Nat.succ.inj hj
    exact Option.some.inj hlast ▸ hasked
  · obtain rfl := Except.ok.inj (hrestart.symm.trans hm')
    refine hnext hs (names_basis hj) fun i last hi hlast => ?_
    obtain rfl := Nat.succ.inj hi
    rw [names_basis hj.le] at hlast
    exact Option.some.inj hlast ▸ hasked

/-! ## The vectors of a run -/

namespace Newton

/-- The names of the scratch vectors, then that of the direction if there is none. -/
def startNames (given : Option Ref) : List String :=
  ["f_of_x", "x_plus_dx", "x_minus_dx", "f_of_x_plus_dx", "f_of_x_minus_dx"] ++
    match given with
    | some _ => []
    | none => ["dx"]

theorem startNames_names_nodup (given : Option Ref) (m : Nat) :
    (startNames given ++ Gmres.names m).Nodup := by
  have hstart : (startNames given).Nodup ∧
      ∀ name ∈ startNames given, name.toList.head? ≠ some 'g' := by
    cases given with
    | some dx => simp [startNames]
    | none => simp [startNames]
  rw [List.nodup_append]
  refine ⟨hstart.1, Gmres.names_nodup m, ?_⟩
  rintro name hname _ hmem rfl
  exact hstart.2 name hname (Gmres.names_head hmem)

/-- Since `s₀` one work vector has been made for each name that was asked for. They differ from one
another and from the vectors that the run works on. -/
structure Allotted (w : Scratch) (x dx : Ref) (s₀ s : Session V S R σ) : Prop where
  made : s.store.names = s₀.store.names ++ s.buffers.names
  once : s.buffers.names.Nodup
  distinct : (s.buffers.entries.map Prod.snd).Nodup
  apart : ∀ e ∈ s.buffers.entries, e.2 ∉ workspace w x dx

variable {P : NonlinearProblem V S R σ} {w : Scratch} {x dx : Ref} {s₀ s s' : Session V S R σ}
variable {Allow : List String → Prop}

theorem allowed_keeping (P : NonlinearProblem V S R σ) (w : Scratch) (x dx : Ref)
    (s₀ : Session V S R σ) : Allowed (Conduct.keeping s₀ Allow) P w x dx where
  closed := Conduct.closed_of_univ rfl P.backend
  respects := Conduct.respects_of_univ rfl P.residual
  grants := Conduct.keeping_grants P.backend
  iterate := trivial
  direction := trivial
  residual := trivial
  trial _ _ := trivial

variable [Scalar S]

theorem opening_makes (P : NonlinearProblem V S R σ) {given : Option Ref} (hx : s.store.Valid x)
    (hgiven : ∀ dx ∈ given, s.store.Valid dx) :
    ∃ w dx s₀, opening P x given s = .ok (w, dx) s₀ ∧
      s₀.store.names = s.store.names ++ startNames given ∧ s₀.buffers = {} ∧
      ∀ r ∈ workspace w x dx, s₀.store.Valid r := by
  cases given with
  | some dx =>
    refine ⟨_, _, _, rfl, by simp [startNames, Store.names_push], rfl, ?_⟩
    have hdx := hgiven dx rfl
    rintro r (rfl | (rfl | rfl) | rfl | rfl | rfl | rfl)
    all_goals simp only [Store.Valid, Store.next, Store.size_push] at *
    all_goals omega
  | none =>
    refine ⟨_, _, _, rfl, by simp [startNames, Store.names_push, Store.names_write], rfl, ?_⟩
    rintro r (rfl | (rfl | rfl) | rfl | rfl | rfl | rfl)
    all_goals simp only [Store.Valid, Store.next, Store.size_push, Store.size_write] at *
    all_goals omega

variable [Magnitude R] {M : Method V S R σ} {T : M.Passages}
variable {notify : Option (R → Nat → Run V S R σ Bool)}

theorem onward_keeping (hT : T.Obey (Conduct.keeping s₀ Allow)) (hquiet : Quiet notify)
    (hbuffers : s₀.buffers = {}) (hAllow : Allow []) (P : NonlinearProblem V S R σ) (w : Scratch)
    (x dx : Ref) :
    (onwardPassage P notify w x dx T).Obeys (Conduct.keeping s₀ Allow) (fun _ _ => True) s₀ :=
  onward_obeys (allowed_keeping P w x dx s₀) hT trivial hquiet
    ⟨.of_no_buffers hbuffers, hbuffers ▸ hAllow⟩

/-- From its opening on, whatever its solver asks for, a run makes one work vector for each name, apart
from its own vectors and from one another, and every later request is answered by the same vector. With
GMRES the names come in its order, and no name is made twice. -/
theorem run_allocates (hT : T.Handed) (hquiet : Quiet notify) {given : Option Ref}
    (hx : s.store.Valid x) (hgiven : ∀ dx ∈ given, s.store.Valid dx) :
    ∃ w dx s₀ after, opening P x given s = .ok (w, dx) s₀ ∧
      (passage P notify x T given).sessions s = (openingPassage P x given).sessions s ++ after ∧
      s₀.store.names = s.store.names ++ startNames given ∧ s₀.buffers = {} ∧
      (∀ t ∈ after, Allotted w x dx s₀ t) ∧
      (∀ name r t₁ t, (directionProblem P M w x dx).new name t₁ = .ok r t →
        (name, r) ∈ t.buffers.entries) ∧
      after.Pairwise (fun t t' => ∀ name r t₁, (directionProblem P M w x dx).new name t₁ = .ok r t →
        (directionProblem P M w x dx).new name t' = .ok r t') ∧
      ∀ (g : Gmres S R) (lsq : LeastSquares S) (q : Inquiry S R (Fault R) σ) (m : Nat)
        (hsolver : M.solver = g.solve lsq)
        (hsearch : ∀ profile, M.search profile M.reach = q.run Run.turn profile),
        T = .ofGmres hsolver hsearch → g.restart = .ok m → ∀ t ∈ after,
          t.buffers.names <+: Gmres.names m ∧ ∃ made, t.store.names = s.store.names ++ made ∧
            made.Nodup ∧ made.length ≤ (startNames given).length + (m + 3) := by
  obtain ⟨w, dx, s₀, hopening, hnames, hbuffers, hvalid⟩ := opening_makes P hx hgiven
  have hkeeps := onward_keeping (hT _ Conduct.keeping_free) hquiet hbuffers trivial P w x dx
  refine ⟨w, dx, s₀, _, hopening, Run.Passage.sessions_bind_ok hopening, hnames, hbuffers,
    ?_, ?_, ?_, ?_⟩
  · intro t ht
    obtain ⟨hkept, -⟩ := (hkeeps.holds t ht).1
    exact ⟨hkept.names_eq, hkept.nodup, hkept.refs_nodup,
      fun e he hmem => hkept.not_valid he (hvalid _ hmem)⟩
  · exact fun name r t₁ t hask => Buffers.mem_of_find? (Run.keptAs_find? hask)
  · refine hkeeps.ordered.imp fun hextends name r t₁ hask => ?_
    exact Run.keptAs_run_of_some (Buffers.find?_of_prefix hextends (Run.keptAs_find? hask))
  · rintro g lsq q m hsolver hsearch rfl hrestart t ht
    have hobey := Method.Passages.obey_of_gmres hsolver hsearch (Gmres.ordered_keeping hrestart s₀)
    have hordered := onward_keeping hobey hquiet hbuffers List.nil_prefix P w x dx
    obtain ⟨hkept, hextends⟩ := (hordered.holds t ht).1
    refine ⟨hextends, startNames given ++ t.buffers.names, ?_, ?_, ?_⟩
    · rw [hkept.names_eq, hnames, List.append_assoc]
    · exact ((List.prefix_append_right_inj _).mpr hextends).sublist.nodup
        (startNames_names_nodup given m)
    · have hlength := hextends.length_le
      simp only [List.length_append, Gmres.names, List.length_cons, List.length_map,
        List.length_range] at hlength ⊢
      omega

/-- Asks for two work vectors, for one of them twice and by the name of a scratch vector, and takes the
residual for the direction. -/
def asking (rhs unknown : Ref) : Procedure (Vector Float 1) Float Unit :=
  .request "f_of_x" fun r => .apply r unknown fun _ => .request "z" fun z => .request "f_of_x" fun r' =>
    .read rhs fun v => .write z v <| .write r' v <| .write unknown v .done

theorem asking_owns (rhs unknown : Ref) : (asking rhs unknown).Owns {rhs, unknown} := by
  simp [asking, Procedure.Owns]

/-- One full step along what a solver leaves. -/
def wholeMethod (solver : KrylovSolver (Vector Float 1) Float Float Unit) :
    Method (Vector Float 1) Float Float Unit :=
  { onceMethod 1 ⟨.full, .ok 1⟩ with solver := solver }

theorem wholeMethod_search (solver : KrylovSolver (Vector Float 1) Float Float Unit)
    (profile : Float → Run (Vector Float 1) Float Float Unit Float) :
    (wholeMethod solver).search profile (wholeMethod solver).reach =
      (LineSearch.inquiry ⟨.full, .ok 1⟩ (.upTo 1)).run Run.turn profile :=
  onceMethod_search 1 ⟨.full, .ok 1⟩ profile

theorem run_line_allocates :
    (∃ w dx s₀ after,
      opening (lineProblem id) ⟨0⟩ (some ⟨1⟩) unitSession = .ok (w, dx) s₀ ∧
      (passage (lineProblem id) none ⟨0⟩
        (Procedure.passages (M := wholeMethod (Procedure.solver asking)) rfl (wholeMethod_search _))
        (some ⟨1⟩)).sessions unitSession =
          (openingPassage (lineProblem id) ⟨0⟩ (some ⟨1⟩)).sessions unitSession ++ after ∧
      ∀ t ∈ after, Allotted w ⟨0⟩ dx s₀ t) ∧
    ∃ after,
      (passage (lineProblem id) none ⟨0⟩ (.ofGmres (M := wholeMethod (GmresOptions.solver {})) rfl
        (wholeMethod_search _)) (some ⟨1⟩)).sessions unitSession =
          (openingPassage (lineProblem id) ⟨0⟩ (some ⟨1⟩)).sessions unitSession ++ after ∧
      ∀ t ∈ after, t.buffers.names <+: Gmres.names 20 ∧ ∃ made,
        t.store.names = unitSession.store.names ++ made ∧ made.Nodup ∧ made.length ≤ 28 := by
  have hsize : 1 < unitSession.store.size := Nat.one_lt_two
  have hvalid : ∀ dx ∈ some (⟨1⟩ : Ref), unitSession.store.Valid dx := fun dx hdx =>
    (given_second hsize dx hdx).1
  constructor
  · obtain ⟨w, dx, s₀, after, hopening, hsessions, -, -, hallotted, -⟩ :=
      run_allocates (P := lineProblem id)
        (Procedure.handed (M := wholeMethod (Procedure.solver asking)) rfl (wholeMethod_search _)
          asking_owns)
        (quiet_consult none) unitSession_valid hvalid
    exact ⟨w, dx, s₀, after, hopening, hsessions, hallotted⟩
  · obtain ⟨-, -, -, after, -, hsessions, -, -, -, -, -, hgmres⟩ :=
      run_allocates (P := lineProblem id)
        (Method.Passages.handed_of_gmres (M := wholeMethod (GmresOptions.solver {})) rfl
          (wholeMethod_search _)) (quiet_consult none) unitSession_valid hvalid
    exact ⟨after, hsessions, hgmres _ _ _ 20 rfl (wholeMethod_search _) rfl rfl⟩

end Newton

end NewtonKrylov
