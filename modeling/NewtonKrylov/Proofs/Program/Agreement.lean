import NewtonKrylov.Proofs.Program.Course
import NewtonKrylov.Proofs.WholeNumbers

/-!
# Agreement of backends

Entries in binary32 or in 32-bit words are kept by two backends each. With binary32 the two differ in
no instruction of a program (`Program.run_withWide`). With words one applies a factor in binary64 and
cuts the result (`Component.int32`), the other makes the factor a word first (`Component.wholeInt32`).
A factor with a fraction therefore does in the second what it does in the first without the fraction
(`CutFactor`), and both agree on whole factors, as long as words have room for all results: integers of
this size are exact in binary64. Half of two is one in the first backend and zero in the second.
-/

namespace NewtonKrylov

variable {V S R σ : Type} {n : Nat}

/-! ## Factors and entries -/

/-- An integer that a 32-bit word holds. -/
def InWord (k : Int) : Prop := -2147483648 ≤ k ∧ k < 2147483648

instance (k : Int) : Decidable (InWord k) :=
  inferInstanceAs (Decidable (-2147483648 ≤ k ∧ k < 2147483648))

/-- The number is this integer. -/
def Number.StandsFor {least : Int} (k : Int) : Number least → Prop :=
  elim (· = k) fun x => (Binary.ofFloat x).equalsInt k = true

/-- The second factor is the first one without its fraction: the same where that is whole. -/
def CutFactor (f g : Number32) : Prop := ∃ k, f.exact = .ok k ∧ g.StandsFor k

section Factors

variable {f g : Number32} {k : Int}

theorem Number.exact_range (h : f.exact = .ok k) :
    -9223372036854775808 ≤ k ∧ k < 9223372036854775808 := by
  cases f with
  | int n fits =>
    obtain rfl : n = k := Except.ok.inj h
    obtain ⟨hle, hlt⟩ := fits
    omega
  | float x => exact Binary64.exact_range h

theorem Number.StandsFor.exact_eq (h : g.StandsFor k)
    (hk : -9223372036854775808 ≤ k ∧ k < 9223372036854775808) : g.exact = .ok k := by
  cases g with
  | int n fits => exact congrArg Except.ok h
  | float x => exact Binary64.exact_of_equalsInt h hk

/-- Every factor that is not refused has a cut one: the number of what is left of it, or itself if there
is no room for a fraction. -/
theorem CutFactor.exists_of_exact (h : f.exact = .ok k) : ∃ g, CutFactor f g := by
  cases f with
  | int n fits => exact ⟨.int n fits, k, h, Except.ok.inj h⟩
  | float x =>
    by_cases hk : k.natAbs < 2 ^ 53
    · exact ⟨.float (Word.number k), k, h, (Binary64.number_holds hk).equalsInt⟩
    · exact ⟨.float x, k, h, Binary64.equalsInt_of_exact h (not_lt.mp hk)⟩

end Factors

namespace Component

open Binary64

section Entries

variable {f g : Number32} {k : Int} {a b : Int32}

theorem factor32_eq (h : f.exact = .ok k) : factor32 f = Int32.ofInt k := by
  rw [factor32, h]

theorem inWord_toInt (a : Int32) : InWord a.toInt := ⟨a.le_toInt, a.toInt_lt⟩

theorem number_toInt_holds (a : Int32) : Holds (Word.number a.toInt) a.toInt := by
  have hword := inWord_toInt a
  unfold InWord at hword
  exact number_holds (by omega)

theorem wholeInt32_addScaled_eq (hf : f.exact = .ok k) (hg : g.StandsFor k)
    (hfits : InWord (a.toInt + k * b.toInt)) :
    wholeInt32.addScaled a b f = int32.addScaled a b g := by
  show a + factor32 f * b = int32.addScaled a b g
  rw [factor32_eq hf]
  cases g with
  | int n fits =>
    obtain rfl : n = k := hg
    rfl
  | float x =>
    have hword := inWord_toInt a
    unfold InWord at hword
    -- the product may be too large for a word, but not by more than one bit
    have hproduct : (k * b.toInt).natAbs < 2 ^ 53 := by
      unfold InWord at hfits
      omega
    have hsum : Holds (Word.number a.toInt + x * Word.number b.toInt) (a.toInt + k * b.toInt) := by
      refine (number_toInt_holds a).add (Holds.factor hg (number_toInt_holds b) hproduct) ?_
      unfold InWord at hfits
      omega
    show _ = Int32.ofInt (Word.cut (-2147483648) (Word.number a.toInt + x * Word.number b.toInt))
    rw [cut_of_exact hsum.exact_eq hfits, Int32.ofInt_add, Int32.ofInt_mul, Int32.ofInt_toInt,
      Int32.ofInt_toInt]

theorem wholeInt32_scale_eq (hf : f.exact = .ok k) (hg : g.StandsFor k)
    (hfits : InWord (k * a.toInt)) : wholeInt32.scale a f = int32.scale a g := by
  show factor32 f * a = int32.scale a g
  rw [factor32_eq hf]
  cases g with
  | int n fits =>
    obtain rfl : n = k := hg
    exact Int32.mul_comm _ a
  | float x =>
    have hproduct : Holds (Word.number a.toInt * x) (k * a.toInt) := by
      rw [float_mul_comm]
      refine Holds.factor hg (number_toInt_holds a) ?_
      unfold InWord at hfits
      omega
    show _ = Int32.ofInt (Word.cut (-2147483648) (Word.number a.toInt * x))
    rw [cut_of_exact hproduct.exact_eq hfits, Int32.ofInt_mul, Int32.ofInt_toInt]

end Entries

/-! ## Filling vectors -/

theorem putFrom_of_flawless {c : Component S V} {xs : List S} (h : ∀ x ∈ xs, (c.space n).flaw x = none)
    (i : Nat) (v : Vector V n) : (c.putFrom i xs v).2 = none := by
  induction xs generalizing i v with
  | nil => rfl
  | cons x xs ih =>
    have hx := h x List.mem_cons_self
    cases hput : c.put x with
    | ok a =>
      simp only [putFrom, hput]
      exact ih (fun y hy => h y (List.mem_cons_of_mem x hy)) (i + 1) _
    | error flaw =>
      simp only [space, hput] at hx
      cases hx

theorem putFrom_congr {c c' : Component S V} (h : c.put = c'.put) (xs : List S) (i : Nat)
    (v : Vector V n) : c.putFrom i xs v = c'.putFrom i xs v := by
  induction xs generalizing i v with
  | nil => rfl
  | cons x xs ih => simp only [putFrom, h, ih]

theorem putAll_of_flawless {c : Component S V} {xs : List S} (h : ∀ x ∈ xs, (c.space n).flaw x = none)
    (v : Vector V n) : c.putAll v xs = c.putFrom 0 xs v := by
  have hflawless := putFrom_of_flawless h 0 v
  unfold putAll
  generalize c.putFrom 0 xs v = u at hflawless ⊢
  obtain ⟨v', flaw⟩ := u
  cases hflawless
  rfl

end Component

/-! ## Spaces -/

/-- A space in which wide factors are met in another way. -/
def Space.withWide (K : Space S V) (wide : V → V → S → V) : Space S V :=
  { K with backend := { K.backend with addScaledWide := wide } }

theorem Space.onDemand_withWide (K : Space S V) (wide : V → V → S → V) :
    (K.withWide wide).onDemand =
      K.onDemand.withWide fun a b f => some (wide (K.written a) (K.written b) f) := rfl

theorem Component.binary32Wide_space (n : Nat) : binary32Wide.space n =
    (binary32.space n).withWide (binary32Wide.backend n).addScaledWide := by
  have hputAll : (binary32Wide.putAll : Vector Float32 n → _) = binary32.putAll := by
    have hput : binary32Wide.put = binary32.put := rfl
    funext v xs
    unfold putAll
    rw [putFrom_congr hput]
    rfl
  unfold space
  rw [hputAll]
  rfl

/-- The first space does with a factor what the second one does with it once its fraction is cut off. -/
structure Space.Cuts (K K' : Space Number32 V) (entries : V → Vector Int32 n) : Prop where
  size_eq : K.backend.size = K'.backend.size
  width_eq : K.width = K'.width
  zero_eq : K.backend.zero = K'.backend.zero
  dot_eq : K.backend.dot = K'.backend.dot
  ofList_eq : K.ofList = K'.ofList
  toList_eq : K.toList = K'.toList
  flaw_eq : K.flaw = K'.flaw
  putAll_eq : ∀ v {xs}, (∀ x ∈ xs, K'.flaw x = none) → K.putAll v xs = K'.putAll v xs
  usable : ∀ {f g}, CutFactor f g → K.factorFlaw f = none ∧ K'.factorFlaw g = none
  addScaled_eq : ∀ {a b f g k}, f.exact = .ok k → g.StandsFor k →
    (∀ i : Fin n, InWord (((entries a).get i).toInt + k * ((entries b).get i).toInt)) →
    K.backend.addScaled a b f = K'.backend.addScaled a b g
  scale_eq : ∀ {a f g k}, f.exact = .ok k → g.StandsFor k →
    (∀ i : Fin n, InWord (k * ((entries a).get i).toInt)) → K.backend.scale a f = K'.backend.scale a g

theorem Component.wholeInt32_cuts (n : Nat) : (wholeInt32.space n).Cuts (int32.space n) id where
  size_eq := by simp only [space, backend]
  width_eq := rfl
  zero_eq := by simp only [space, backend, wholeInt32, int32]
  dot_eq := by simp only [space, backend, wholeInt32, int32]
  ofList_eq := rfl
  toList_eq := rfl
  flaw_eq := rfl
  putAll_eq v xs h := by
    have hput : wholeInt32.put = int32.put := rfl
    show wholeInt32.putAll v xs = int32.putAll v xs
    rw [putAll_of_flawless h, putAll_of_flawless (c := wholeInt32) h]
    exact putFrom_congr hput xs 0 v
  usable h := by
    obtain ⟨k, hf, -⟩ := h
    refine ⟨?_, rfl⟩
    simp only [space, wholeInt32, hf]
  addScaled_eq hf hg hfits := by
    ext i hi
    simp only [space, backend, Vector.getElem_zipWith]
    exact wholeInt32_addScaled_eq hf hg (hfits ⟨i, hi⟩)
  scale_eq hf hg hfits := by
    ext i hi
    simp only [space, backend, Vector.getElem_map]
    exact wholeInt32_scale_eq hf hg (hfits ⟨i, hi⟩)

theorem Space.Cuts.onDemand {K K' : Space Number32 V} {entries : V → Vector Int32 n}
    (h : K.Cuts K' entries) : K.onDemand.Cuts K'.onDemand (fun v => entries (K'.written v)) := by
  have hwritten : K.written = K'.written := by
    funext v
    cases v with
    | none => exact congrFun h.zero_eq ()
    | some v => rfl
  exact {
    size_eq := h.size_eq
    width_eq := h.width_eq
    zero_eq := rfl
    dot_eq := by simp only [Space.onDemand, hwritten, h.dot_eq]
    ofList_eq := by simp only [Space.onDemand, h.ofList_eq]
    toList_eq := by simp only [Space.onDemand, hwritten, h.toList_eq]
    flaw_eq := h.flaw_eq
    putAll_eq := fun v xs hxs => by simp only [Space.onDemand, hwritten, h.putAll_eq _ hxs]
    usable := h.usable
    addScaled_eq := fun hf hg hfits => by
      simp only [Space.onDemand, hwritten, h.addScaled_eq hf hg hfits]
    scale_eq := fun hf hg hfits => by
      simp only [Space.onDemand, hwritten, h.scale_eq hf hg hfits] }

/-! ## Instructions -/

/-- The factor of an instruction. -/
def Instruction.factor? : Instruction S → Option S
  | addScaled _ _ _ f | scale _ _ f => some f
  | _ => none

/-- The second instruction is the first one with its factor cut. -/
inductive Instruction.Cut : Instruction Number32 → Instruction Number32 → Prop
  | addScaled (dest a b : String) {f g : Number32} (h : CutFactor f g) :
      Cut (.addScaled dest a b f) (.addScaled dest a b g)
  | scale (dest a : String) {f g : Number32} (h : CutFactor f g) : Cut (.scale dest a f) (.scale dest a g)
  | factorless (i : Instruction Number32) (h : i.factor? = none) : Cut i i

/-- Both make new vectors in the same way. -/
structure Step.Cut (step step' : Step Number32) : Prop where
  instruction : step.instruction.Cut step'.instruction
  throughBuffers : step.throughBuffers = step'.throughBuffers

theorem Instruction.exists_cut {i : Instruction Number32}
    (h : ∀ f, i.factor? = some f → ∃ k, f.exact = .ok k) : ∃ i', i.Cut i' := by
  cases i with
  | addScaled dest a b f =>
    obtain ⟨k, hk⟩ := h f rfl
    obtain ⟨g, hg⟩ := CutFactor.exists_of_exact hk
    exact ⟨_, .addScaled dest a b hg⟩
  | scale dest a f =>
    obtain ⟨k, hk⟩ := h f rfl
    obtain ⟨g, hg⟩ := CutFactor.exists_of_exact hk
    exact ⟨_, .scale dest a hg⟩
  | _ => exact ⟨_, .factorless _ rfl⟩

/-- A program whose factors are not refused can be cut. -/
theorem Step.exists_cut {steps : List (Step Number32)}
    (h : ∀ step ∈ steps, ∀ f, step.instruction.factor? = some f → ∃ k, f.exact = .ok k) :
    ∃ steps', List.Forall₂ Step.Cut steps steps' := by
  induction steps with
  | nil => exact ⟨[], .nil⟩
  | cons step steps ih =>
    obtain ⟨i, hi⟩ := Instruction.exists_cut (h step List.mem_cons_self)
    obtain ⟨steps', hsteps⟩ := ih fun step' hmem => h step' (List.mem_cons_of_mem step hmem)
    exact ⟨⟨i, step.throughBuffers⟩ :: steps', .cons ⟨hi, rfl⟩ hsteps⟩

theorem Instruction.cut_self {i : Instruction Number32}
    (h : ∀ f, i.factor? = some f → CutFactor f f) : i.Cut i := by
  cases i with
  | addScaled dest a b f => exact .addScaled dest a b (h f rfl)
  | scale dest a f => exact .scale dest a (h f rfl)
  | _ => exact .factorless _ rfl

theorem Step.cut_self {steps : List (Step Number32)}
    (h : ∀ step ∈ steps, ∀ f, step.instruction.factor? = some f → CutFactor f f) :
    List.Forall₂ Step.Cut steps steps :=
  List.forall₂_same.mpr fun step hmem => ⟨Instruction.cut_self (h step hmem), rfl⟩

theorem Nested.numbers_list (xs : List S) : (Nested.list (xs.map .number)).numbers = xs := by
  induction xs with
  | nil => rfl
  | cons x xs ih => exact congrArg (x :: ·) ih

namespace Program

/-- The numbers of an instruction and its results have room in words. -/
def Fits (K : Space Number32 V) (entries : V → Vector Int32 n) [Inhabited V] (step : Step Number32)
    (regs : Registers) (s : Session V Number32 R σ) : Prop :=
  match step.instruction with
  | .assign _ values => ∀ x ∈ values.numbers, K.flaw x = none
  | .set _ xs => ∀ x ∈ xs, K.flaw x = none
  | .addScaled _ a b f => ∀ k, f.exact = .ok k → ∀ i : Fin n,
    InWord (((entries (s.store.read (regs.ref a))).get i).toInt +
      k * ((entries (s.store.read (regs.ref b))).get i).toInt)
  | .scale _ a f => ∀ k, f.exact = .ok k → ∀ i : Fin n,
    InWord (k * ((entries (s.store.read (regs.ref a))).get i).toInt)
  | _ => True

theorem mem_numbers_of_filling {values : Nested S} {xs : List S} {x : S}
    (h : filling (R := R) n values = .ok xs) (hx : x ∈ xs) : x ∈ values.numbers := by
  have hreplicated : x ∈ values.numbers.flatMap (List.replicate n) → x ∈ values.numbers := by
    intro hmem
    obtain ⟨y, hy, hxy⟩ := List.mem_flatMap.mp hmem
    exact List.eq_of_mem_replicate hxy ▸ hy
  unfold filling at h
  split at h
  · cases h
    exact hreplicated hx
  · split at h
    · cases h
      exact hx
    · split at h
      · cases h
        exact hreplicated hx
      · cases h
  · cases h

section Cuts

variable [Inhabited V] {K K' : Space Number32 V} {entries : V → Vector Int32 n} {step step' : Step Number32}
  {steps steps' : List (Step Number32)} {regs : Registers} {s : Session V Number32 R σ}

omit [Inhabited V] in
theorem written_cut (h : K.Cuts K' entries) (v : V) {values : Nested Number32}
    (hfits : ∀ x ∈ values.numbers, K'.flaw x = none) :
    written (R := R) K v values = written K' v values := by
  unfold written
  rw [h.size_eq, h.flaw_eq]
  cases hfilling : filling (R := R) K'.backend.size values with
  | error e => cases e <;> rfl
  | ok xs =>
    have hxs : ∀ x ∈ xs, K'.flaw x = none := fun x hx =>
      hfits x (mem_numbers_of_filling hfilling hx)
    simp only [h.putAll_eq v hxs]

theorem writeTo_cut (h : K.Cuts K' entries) (r : Ref) {values : Nested Number32}
    (hfits : ∀ x ∈ values.numbers, K'.flaw x = none) :
    (writeTo K r values : Run V Number32 R σ Unit) = writeTo K' r values := by
  unfold writeTo
  simp only [written_cut h _ hfits]

omit [Inhabited V] in
theorem new_cut (h : K.Cuts K' entries) :
    (roomy K : String → Run V Number32 R σ Ref) = roomy K' := by
  funext name
  simp only [roomy, Backend.new, h.size_eq, h.width_eq, h.zero_eq]

theorem dotAt_cut (h : K.Cuts K' entries) (a b : Ref) :
    (K.backend.dotAt a b : Run V Number32 R σ Number32) = K'.backend.dotAt a b := by
  funext s
  simp only [Backend.dotAt, h.dot_eq]

theorem meanSquareAt_cut (h : K.Cuts K' entries) (a : Ref) :
    (K.backend.meanSquareAt a : Run V Number32 R σ Number32) = K'.backend.meanSquareAt a := by
  funext s
  simp only [Backend.meanSquareAt, Backend.meanSquare, h.dot_eq, h.size_eq]

/-- A copy is a multiple that always fits. -/
theorem copyInto_cut (h : K.Cuts K' entries) (dest a : Ref) :
    (K.backend.scaleInto dest a (Scalar.ofNat 1) : Run V Number32 R σ Unit) =
      K'.backend.scaleInto dest a (Scalar.ofNat 1) := by
  funext s
  have hexact : (Scalar.ofNat 1 : Number32).exact = .ok 1 := rfl
  have hone : (Scalar.ofNat 1 : Number32).StandsFor 1 := rfl
  have hfits : ∀ i : Fin n, InWord (1 * ((entries (s.store.read a)).get i).toInt) := fun i => by
    rw [one_mul]
    exact Component.inWord_toInt _
  simp only [Backend.scaleInto, h.scale_eq hexact hone hfits]

theorem exec_factorless (h : K.Cuts K' entries) {i : Instruction Number32} (hi : i.factor? = none)
    {view : Bool} (hfits : Fits K' entries ⟨i, view⟩ regs s) :
    exec (bench K) ⟨i, view⟩ regs s = exec (bench K') ⟨i, view⟩ regs s := by
  cases i with
  | addScaled | scale => cases hi
  | new dest name => simp only [exec, bench, entriesAt, new_cut h, h.toList_eq]
  | keep dest name => simp only [exec, bench, entriesAt, new_cut h, h.toList_eq]
  | fromValues dest name values =>
    simp only [exec, bench, entriesAt, vectorOf, Backend.new, h.size_eq, h.zero_eq, h.ofList_eq,
      h.toList_eq]
  | assign dest values =>
    simp only [exec, bench, entriesAt, writeTo_cut h _ hfits, h.toList_eq]
  | set dest xs =>
    have hnumbers : ∀ x ∈ (Nested.list (xs.map .number)).numbers, K'.flaw x = none := by
      rw [Nested.numbers_list]
      exact hfits
    simp only [exec, bench, entriesAt, writeTo_cut h _ hnumbers, h.toList_eq]
  | dot a b => simp only [exec, bench, dotAt_cut h]
  | norm a => simp only [exec, bench, meanSquareAt_cut h]
  | copy dest a => simp only [exec, bench, copyInto_cut h, entriesAt, h.toList_eq]
  | contents a => simp only [exec, bench, entriesAt, h.toList_eq]
  | size => simp only [exec, bench, h.size_eq]
  | apply dest v => simp only [exec, bench, entriesAt, h.toList_eq]
  | same | kept | keptCount | keptNames => rfl

theorem exec_cut (h : K.Cuts K' entries) (hcut : step.Cut step') (hfits : Fits K' entries step' regs s) :
    exec (bench K) step regs s = exec (bench K') step' regs s := by
  obtain ⟨i, view⟩ := step
  obtain ⟨i', view'⟩ := step'
  obtain ⟨hinstruction, rfl⟩ := hcut
  cases hinstruction with
  | @addScaled dest a b f g hfactor =>
    obtain ⟨husable, husable'⟩ := h.usable hfactor
    obtain ⟨k, hf, hg⟩ := hfactor
    have hk := hg.exact_eq (Number.exact_range hf)
    rw [exec_addScaled_of_usable husable, exec_addScaled_of_usable husable',
      h.addScaled_eq hf hg (hfits k hk), h.toList_eq]
  | @scale dest a f g hfactor =>
    obtain ⟨husable, husable'⟩ := h.usable hfactor
    obtain ⟨k, hf, hg⟩ := hfactor
    have hk := hg.exact_eq (Number.exact_range hf)
    rw [exec_scale_of_usable husable, exec_scale_of_usable husable', h.scale_eq hf hg (hfits k hk),
      h.toList_eq]
  | factorless i hi => exact exec_factorless h hi hfits

/-- Programs do the same in both spaces. -/
theorem run_cut (h : K.Cuts K' entries) (hcut : List.Forall₂ Step.Cut steps steps') :
    ∀ {regs : Registers} {s : Session V Number32 R σ}, Along (bench K') (Fits K' entries) steps' regs s →
      run (bench K) steps regs s = run (bench K') steps' regs s := by
  induction hcut with
  | nil => exact fun _ => rfl
  | cons hstep _ ih =>
    intro regs s halong
    exact run_cons_congr (exec_cut h hstep halong.1) (fun _ _ hexec => ih (halong.tail_of_ok hexec))
      (fun _ _ hexec => ih (halong.tail_of_error hexec))

end Cuts

/-! ## Vector programs -/

section Run

variable [Inhabited V] [Scalar S] {K : Space S V} {steps : List (Step S)} {regs : Registers}
  {s : Session V S R σ}

theorem exec_withWide (K : Space S V) (wide : V → V → S → V) (step : Step S) (regs : Registers)
    (s : Session V S R σ) : exec (bench (K.withWide wide)) step regs s = exec (bench K) step regs s := by
  obtain ⟨i, view⟩ := step
  cases i <;> rfl

theorem run_withWide (K : Space S V) (wide : V → V → S → V) (steps : List (Step S)) (regs : Registers)
    (s : Session V S R σ) : run (bench (K.withWide wide)) steps regs s = run (bench K) steps regs s := by
  induction steps generalizing regs s with
  | nil => rfl
  | cons step steps ih =>
    exact run_cons_congr (exec_withWide K wide step regs s) (fun u s' _ => ih u.1 s')
      (fun _ s' _ => ih regs s')

variable (K) in
/-- After every instruction two programs have answered the same, and every vector is the same. -/
def InStep (K' : Space S V) (steps steps' : List (Step S)) (regs : Registers)
    (s : Session V S R σ) : Prop :=
  ∀ k, run (bench K) (steps.take k) regs s = run (bench K') (steps'.take k) regs s

end Run

theorem inStep_of_cut [Inhabited V] {K K' : Space Number32 V} {entries : V → Vector Int32 n}
    {steps steps' : List (Step Number32)} {regs : Registers} {s : Session V Number32 R σ}
    (h : K.Cuts K' entries) (hcut : List.Forall₂ Step.Cut steps steps')
    (hfits : Along (bench K') (Fits K' entries) steps' regs s) : InStep K K' steps steps' regs s :=
  fun k => run_cut h (List.forall₂_take k hcut) (hfits.take k)

/-- The backends that hold the same entries agree on programs, on whole vectors as on vectors that are
zero until they are written. With entries in binary32 they agree on all programs. With words they agree
if factors are whole, as far as all results have room in words; a factor with a fraction does in the one
what it does in the other without the fraction. -/
theorem backends_agree (n : Nat) :
    (∀ steps regs (s : Session (Vector Float32 n) Float R σ),
      InStep (Component.binary32.space n) (Component.binary32Wide.space n) steps steps regs s) ∧
    (∀ steps regs (s : Session (Option (Vector Float32 n)) Float R σ),
      InStep (Component.binary32.space n).onDemand (Component.binary32Wide.space n).onDemand
        steps steps regs s) ∧
    (∀ steps steps' regs (s : Session (Vector Int32 n) Number32 R σ),
      List.Forall₂ Step.Cut steps steps' →
      Along (bench (Component.int32.space n)) (Fits (Component.int32.space n) id) steps' regs s →
      InStep (Component.wholeInt32.space n) (Component.int32.space n) steps steps' regs s) ∧
    (∀ steps steps' regs (s : Session (Option (Vector Int32 n)) Number32 R σ),
      List.Forall₂ Step.Cut steps steps' →
      Along (bench (Component.int32.space n).onDemand)
        (Fits (Component.int32.space n).onDemand (Component.int32.space n).written) steps' regs s →
      InStep (Component.wholeInt32.space n).onDemand (Component.int32.space n).onDemand
        steps steps' regs s) := by
  refine ⟨?_, ?_, ?_, ?_⟩
  · intro steps regs s k
    rw [Component.binary32Wide_space, run_withWide]
  · intro steps regs s k
    rw [Component.binary32Wide_space, Space.onDemand_withWide, run_withWide]
  · intro steps steps' regs s hcut hfits
    exact inStep_of_cut (Component.wholeInt32_cuts n) hcut hfits
  · intro steps steps' regs s hcut hfits
    exact inStep_of_cut (Component.wholeInt32_cuts n).onDemand hcut hfits

/-- A session in which nothing was done yet. -/
def blank : Session V Number32 Float Unit := { outside := () }

/-- Two, times a factor. -/
def multiple (f : Float) : List (Step Number32) :=
  [⟨.fromValues "a" "a" (.list [.number (.float 2)]), false⟩, ⟨.scale "a" "a" (.float f), false⟩]

/-- A multiple of two, with another multiple of it added. -/
def multiples (f g : Float) : List (Step Number32) :=
  multiple f ++ [⟨.addScaled "a" "a" "a" (.float g), false⟩]

/-- The factor `2.5` on one side is `2` on the other; the factors `2` and `-3` are the same on both. -/
theorem backends_agree_multiples :
    InStep (Component.wholeInt32.space 1) (Component.int32.space 1) (multiples 2.5 (-3))
      (multiples 2 (-3)) [] blank ∧
    InStep (Component.wholeInt32.space 1).onDemand (Component.int32.space 1).onDemand
      (multiples 2 (-3)) (multiples 2 (-3)) [] blank := by
  have hcut : List.Forall₂ Step.Cut (multiples 2.5 (-3)) (multiples 2 (-3)) := by
    refine .cons ?_ (.cons ?_ (.cons ?_ .nil))
    · exact ⟨.factorless _ rfl, rfl⟩
    · exact ⟨.scale _ _ ⟨2, rfl, rfl⟩, rfl⟩
    · exact ⟨.addScaled _ _ _ ⟨-3, rfl, rfl⟩, rfl⟩
  have hsame : List.Forall₂ Step.Cut (multiples 2 (-3)) (multiples 2 (-3)) := by
    refine Step.cut_self fun step hstep f hf => ?_
    rcases hstep with - | ⟨_, - | ⟨_, - | ⟨_, ⟨⟩⟩⟩⟩
    · cases hf
    · cases hf
      exact ⟨2, rfl, rfl⟩
    · cases hf
      exact ⟨-3, rfl, rfl⟩
  have htwo : ∀ v : Vector Int32 1, v = #v[2] → ∀ i : Fin 1, InWord (2 * (v.get i).toInt) := by
    rintro v rfl
    decide
  have hfour : ∀ v : Vector Int32 1, v = #v[4] →
      ∀ i : Fin 1, InWord ((v.get i).toInt + -3 * (v.get i).toInt) := by
    rintro v rfl
    decide
  refine ⟨(backends_agree 1).2.2.1 _ _ _ _ hcut ?_, (backends_agree 1).2.2.2 _ _ _ _ hsame ?_⟩
  all_goals
    refine ⟨trivial, fun k hk => ?_, fun k hk => ?_, trivial⟩
    · cases hk
      exact htwo _ (by decide +kernel)
    · cases hk
      exact hfour _ (by decide +kernel)

/-- Half of two is one in the first backend and zero in the second. -/
theorem halving_differs : ∃ answers answers' s s',
    run (bench (Component.int32.space 1)) (multiple 0.5) [] blank = .ok answers s ∧
    run (bench (Component.wholeInt32.space 1)) (multiple 0.5) [] blank = .ok answers' s' ∧
    s.store.read ⟨0⟩ = #v[1] ∧ s'.store.read ⟨0⟩ = #v[0] := by
  refine ⟨_, _, _, _, rfl, rfl, ?_, ?_⟩
  · decide +kernel
  · decide +kernel

end Program

end NewtonKrylov
