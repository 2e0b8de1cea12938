import NewtonKrylov.Newton
import NewtonKrylov.Proofs.Program.Agreement

/-!
# Copies

Numbers read from a vector make a vector with the same entries in every backend, and are read from it
again. So are other numbers that stand for entries: words are made from integers, or from binary64 numbers
if the array holds one.

Copying is scaling by one. Entries in binary64 and binary32 are copied as they are, and so are 32-bit
words, which binary64 holds exactly. A 64-bit word is scaled in binary64: it is copied if it has at most
53 significant bits (`Binary64.Short`), and `2 ^ 53 + 1` is the least positive one that is not.
-/

namespace NewtonKrylov

variable {V S α β : Type} {n : Nat}

theorem Nested.shape_list (xs : List S) : (Nested.list (xs.map .number)).shape = [xs.length] := by
  cases xs <;> simp [shape]

namespace Component

theorem toList_fill (c : Component S α) (entry : β → α) {xs : List β} (hlength : xs.length = n) :
    (c.fill entry n xs).toList = xs.map entry := by
  apply List.ext_getElem
  · rw [Vector.length_toList, List.length_map, hlength]
  · intro i hi hi'
    rw [List.length_map] at hi'
    simp [fill, List.getElem?_eq_getElem hi']

/-- Numbers that stand for an entry are stored as it, and one of them is read from it. Scaling by one
leaves an entry as it is if it is `Copied`, and no other one. -/
structure Carries [Scalar S] (c : Component S α) (Stands : S → α → Prop) (Copied : α → Prop) : Prop where
  length_gather : ∀ xs, (c.gather xs).length = xs.length
  gather_load : ∀ entries : List α, c.gather (entries.map c.load) = entries.map c.load
  store_eq : ∀ {x a}, Stands x a → c.store x = a
  load_stands : ∀ a, Stands (c.load a) a
  scale_one : ∀ a, c.scale a (Scalar.ofNat 1) = a ↔ Copied a

end Component

/-- Numbers and copies in a space whose vectors have `n` entries of type `α`. -/
structure Space.Carries [Inhabited V] [Scalar S] (K : Space S V) (c : Component S α)
    (entries : V → Vector α n) (Stands : S → α → Prop) (Copied : α → Prop) : Prop where
  /-- A vector made from an array has the entries that the numbers in there stand for. -/
  fromValues : ∀ {R σ : Type} (name : String) {xs : List S} {v : Vector α n} (s : Session V S R σ),
    List.Forall₂ Stands (c.gather xs) v.toList →
    ∃ t, Program.vectorOf K name (.list (xs.map .number)) s = .ok s.store.next t ∧
      s.Keeps {r | s.store.Valid r} t ∧ entries (t.store.read s.store.next) = v
  /-- The numbers read from any entries make a vector with these entries, and are read from it again. -/
  roundTrip : ∀ {R σ : Type} (name : String) (v : Vector α n) (s : Session V S R σ),
    ∃ t, Program.vectorOf K name (.list ((v.toList.map c.load).map .number)) s = .ok s.store.next t ∧
      s.Keeps {r | s.store.Valid r} t ∧ entries (t.store.read s.store.next) = v ∧
      Program.entriesAt (Program.bench K) s.store.next t =
        .ok (.contents (v.toList.map c.load)) t
  /-- A copy has an entry of the source if that is `Copied`, and another one if not. -/
  copy : ∀ {R σ : Type} (dest src : Ref) (s : Session V S R σ), s.store.Valid dest →
    ∃ t, K.backend.scaleInto dest src (Scalar.ofNat 1) s = .ok () t ∧ s.Keeps {r | r ≠ dest} t ∧
      ∀ i : Fin n, (entries (t.store.read dest)).get i = (entries (s.store.read src)).get i ↔
        Copied ((entries (s.store.read src)).get i)
  /-- So has the direction that a run begins with if it is given none. -/
  direction : ∀ {R σ : Type} [Magnitude R] (P : NonlinearProblem V S R σ) (x : Ref)
    (s : Session V S R σ), P.backend = K.backend → s.store.Valid x →
    ∃ t, Newton.direction P x none s = .ok s.store.next t ∧ s.Keeps {r | s.store.Valid r} t ∧
      ∀ i : Fin n, (entries (t.store.read s.store.next)).get i = (entries (s.store.read x)).get i ↔
        Copied ((entries (s.store.read x)).get i)

section Carries

variable [Scalar S] {c : Component S α} {Stands : S → α → Prop} {Copied : α → Prop}

section Contents

variable [Inhabited V] {K : Space S V} {entries : V → Vector α n} (hc : c.Carries Stands Copied)
  (hsize : K.backend.size = n)
  (hofList : ∀ {xs v}, List.Forall₂ Stands (c.gather xs) (Vector.toList v) → entries (K.ofList xs) = v)
include hc hsize hofList

theorem Space.vectorOf_run {R σ : Type} (name : String) {xs : List S} {v : Vector α n}
    (s : Session V S R σ) (h : List.Forall₂ Stands (c.gather xs) v.toList) :
    ∃ t, Program.vectorOf K name (.list (xs.map .number)) s = .ok s.store.next t ∧
      s.Keeps {r | s.store.Valid r} t ∧ entries (t.store.read s.store.next) = v := by
  have hlength : xs.length = n := by rw [← hc.length_gather, h.length_eq, Vector.length_toList]
  have hexactly : Program.exactly (R := R) K.backend.size (.list (xs.map .number)) = .ok xs := by
    rw [Program.exactly, hsize, Nested.shape_list, hlength, if_pos rfl, Nested.numbers_list]
  have hvalid : (s.push name (K.backend.zero ())).store.Valid s.store.next := Store.valid_next name
  refine ⟨(s.push name (K.backend.zero ())).write s.store.next (K.ofList xs), ?_, ?_, ?_⟩
  · rw [Program.vectorOf, hexactly]
    rfl
  · refine (Session.Keeps.push (fun r hr => hr) name).trans (Session.Keeps.write ?_)
    exact Store.not_valid_next
  · rw [Session.store_write, Store.read_write_self hvalid, hofList h]

theorem Space.carries_of_contents (htoList : ∀ u, K.toList u = (entries u).toList.map c.load)
    (hcopy : ∀ u (i : Fin n), (entries (K.backend.copy u)).get i = (entries u).get i ↔
      Copied ((entries u).get i)) :
    K.Carries c entries Stands Copied where
  fromValues := Space.vectorOf_run hc hsize hofList
  roundTrip name v s := by
    have hstands : List.Forall₂ Stands (c.gather (v.toList.map c.load)) v.toList := by
      rw [hc.gather_load, List.forall₂_map_left_iff]
      exact List.forall₂_same.mpr fun a _ => hc.load_stands a
    obtain ⟨t, hrun, hkeeps, hentries⟩ := Space.vectorOf_run hc hsize hofList name s hstands
    refine ⟨t, hrun, hkeeps, hentries, ?_⟩
    rw [← hentries, ← htoList]
    rfl
  copy dest src s hdest := by
    refine ⟨s.write dest (K.backend.copy (s.store.read src)), rfl, ?_, fun i => ?_⟩
    · exact Session.Keeps.write fun h => h rfl
    · rw [Session.store_write, Store.read_write_self hdest]
      exact hcopy _ i
  direction P x s hbackend hx := by
    have hvalid : (s.push "dx" (K.backend.zero ())).store.Valid s.store.next := Store.valid_next "dx"
    have hread : (s.push "dx" (K.backend.zero ())).store.read x = s.store.read x :=
      Store.read_push_of_valid hx
    refine ⟨(s.push "dx" (K.backend.zero ())).write s.store.next (K.backend.copy (s.store.read x)),
      ?_, ?_, fun i => ?_⟩
    · rw [Newton.direction, hbackend, ← hread]
      rfl
    · refine (Session.Keeps.push (fun r hr => hr) "dx").trans (Session.Keeps.write ?_)
      exact Store.not_valid_next
    · rw [Session.store_write, Store.read_write_self hvalid]
      exact hcopy _ i

end Contents

namespace Component

variable [Inhabited α]

/-- The numbers of entries make these entries, and are read again from all of them; so are other numbers
that stand for them. A copy has the entries of its source that are `Copied`, and other ones for the
rest. -/
structure Moves (c : Component S α) (n : Nat) (Stands : S → α → Prop) (Copied : α → Prop) : Prop where
  whole : (c.space n).Carries c id Stands Copied
  onDemand : (c.space n).onDemand.Carries c (c.space n).written Stands Copied

/-- Vectors of entries carry what the entries do, whole vectors as well as vectors that take no room
until they are written. -/
theorem Carries.moves (h : c.Carries Stands Copied) (n : Nat) : c.Moves n Stands Copied := by
  have hofList : ∀ {xs : List S} {v : Vector α n}, List.Forall₂ Stands (c.gather xs) v.toList →
      (c.space n).ofList xs = v := by
    intro xs v hstands
    have hmap : (c.gather xs).map c.store = v.toList := by
      rw [← List.forall₂_eq_eq_eq, List.forall₂_map_left_iff]
      exact hstands.imp fun _ _ hx => h.store_eq hx
    have hlength : (c.gather xs).length = n := by rw [hstands.length_eq, Vector.length_toList]
    rw [← Vector.toList_inj, ← hmap]
    exact c.toList_fill c.store hlength
  have hcopy : ∀ (v : Vector α n) (i : Fin n), ((c.backend n).copy v).get i = v.get i ↔
      Copied (v.get i) := by
    intro v i
    have hget : ((c.backend n).copy v).get i = c.scale (v.get i) (Scalar.ofNat 1) := by
      simp [Backend.copy, backend, Vector.get_eq_getElem]
    rw [hget, h.scale_one]
  exact
    { whole := Space.carries_of_contents h rfl hofList (fun _ => rfl) hcopy
      onDemand := Space.carries_of_contents h rfl hofList (fun _ => rfl)
        fun u i => hcopy ((c.space n).written u) i }

end Component

end Carries

/-! ## The backends -/

theorem Number.gather_of_isInt {least : Int} {xs : List (Number least)} (h : ∀ x ∈ xs, x.isInt = true) :
    gather xs = xs :=
  if_pos (List.all_eq_true.mpr h)

theorem Number.length_gather {least : Int} (xs : List (Number least)) :
    (gather xs).length = xs.length := by
  unfold gather
  split
  · rfl
  · exact List.length_map _

namespace Component

open Binary64

theorem plain_carries : (plain Float).Carries (fun x a => x = a) fun _ => True where
  length_gather _ := rfl
  gather_load _ := rfl
  store_eq h := h
  load_stands _ := rfl
  scale_one a := iff_of_true (Rounding.float_mul_one a) trivial

theorem binary32_carries : binary32.Carries (fun x a => x = Precision.widen a) fun _ => True where
  length_gather _ := rfl
  gather_load _ := rfl
  store_eq h := by
    rw [h]
    exact Rounding.narrow_widen _
  load_stands _ := rfl
  scale_one a := iff_of_true (Rounding.float32_mul_one a) trivial

theorem binary32Wide_carries :
    binary32Wide.Carries (fun x a => x = Precision.widen a) fun _ => True where
  length_gather := binary32_carries.length_gather
  gather_load := binary32_carries.gather_load
  store_eq := binary32_carries.store_eq
  load_stands := binary32_carries.load_stands
  scale_one := binary32_carries.scale_one

section Words

variable [Zero α] [Add α] [Mul α] {least : Int} {width : Nat} {ofInt : Int → α} {toInt : α → Int}
  {fits : ∀ a, Word.Fits least (toInt a)} {Copied : α → Prop}

/-- Words of at most 64 bits are copied if they come back from binary64. -/
theorem words_carries (hofInt : ∀ a, ofInt (toInt a) = a) (hleast : -9223372036854775808 ≤ least)
    (hcopied : ∀ a, ofInt (Word.cut least (Word.number (toInt a))) = a ↔ Copied a) :
    (words width ofInt toInt fits).Carries (fun x a => x.StandsFor (toInt a)) Copied where
  length_gather := Number.length_gather
  gather_load entries := Number.gather_of_isInt fun x hx => by
    obtain ⟨a, -, rfl⟩ := List.mem_map.mp hx
    rfl
  store_eq {x a} h := by
    cases x with
    | int m _ =>
      obtain rfl : m = toInt a := h
      exact hofInt a
    | float x =>
      have hword := fits a
      have hexact : Word.exact x = .ok (toInt a) := exact_of_equalsInt h (by omega)
      show ofInt (Word.cut least x) = a
      rw [cut_of_exact hexact hword, hofInt]
  load_stands a := rfl
  scale_one a := by
    show ofInt (Word.cut least (Word.number (toInt a) * Scalar.ofNat 1)) = a ↔ Copied a
    rw [Rounding.float_mul_one]
    exact hcopied a

end Words

theorem int32_carries : int32.Carries (fun x a => x.StandsFor a.toInt) fun _ => True :=
  words_carries (fun _ => Int32.ofInt_toInt _) (by decide) fun a => by
    refine iff_of_true ?_ trivial
    rw [cut_of_exact (number_toInt_holds a).exact_eq (inWord_toInt a), Int32.ofInt_toInt]

theorem wholeInt32_carries : wholeInt32.Carries (fun x a => x.StandsFor a.toInt) fun _ => True where
  length_gather := int32_carries.length_gather
  gather_load := int32_carries.gather_load
  store_eq := int32_carries.store_eq
  load_stands := int32_carries.load_stands
  scale_one a := by
    have hone : factor32 (Scalar.ofNat 1) = 1 := rfl
    refine iff_of_true ?_ trivial
    show factor32 (Scalar.ofNat 1) * a = a
    rw [hone, Int32.one_mul]

theorem int64_carries : int64.Carries (fun x a => x.StandsFor a.toInt) fun a => Short a.toInt :=
  words_carries (fun _ => Int64.ofInt_toInt _) le_rfl fun a => by
    rw [← cut_number ⟨a.le_toInt, a.toInt_lt⟩]
    obtain ⟨hle, hlt⟩ := cut_fits (-9223372036854775808) (by decide) (Word.number a.toInt)
    constructor
    · intro h
      rw [← Int64.toInt_ofInt_of_le hle hlt, h]
    · intro h
      rw [h, Int64.ofInt_toInt]

/-- All backends hold what they are given and give it back. All of them copy every vector, but that
64-bit words are copied exactly where they have at most 53 significant bits. -/
theorem backends_move (n : Nat) :
    (plain Float).Moves n (fun x a => x = a) (fun _ => True) ∧
    binary32.Moves n (fun x a => x = Precision.widen a) (fun _ => True) ∧
    binary32Wide.Moves n (fun x a => x = Precision.widen a) (fun _ => True) ∧
    int32.Moves n (fun x a => x.StandsFor a.toInt) (fun _ => True) ∧
    wholeInt32.Moves n (fun x a => x.StandsFor a.toInt) (fun _ => True) ∧
    int64.Moves n (fun x a => x.StandsFor a.toInt) (fun a => Short a.toInt) :=
  ⟨plain_carries.moves n, binary32_carries.moves n, binary32Wide_carries.moves n,
    int32_carries.moves n, wholeInt32_carries.moves n, int64_carries.moves n⟩

/-- The word after `2 ^ 53` is copied as the one before it, and the largest word as the least. -/
theorem int64_copies_differ :
    (int64.backend 2).copy #v[9007199254740993, 9223372036854775807] =
      #v[9007199254740992, -9223372036854775808] := by
  decide +kernel

end Component

end NewtonKrylov
