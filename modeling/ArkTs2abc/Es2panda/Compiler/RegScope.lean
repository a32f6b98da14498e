import Mathlib.Data.List.Basic
import Mathlib.Data.List.Range
import Mathlib.Data.Fintype.Card
import Mathlib.Data.Fintype.List
import Mathlib.Algebra.Ring.Nat

/-!
# Virtual registers and register scopes

`PandaGen` numbers the registers of a function with a 32-bit counter and hands
them out as 16-bit `VReg` values. A `RegScope` remembers the counter when it is
opened and gives every register above that mark back when it is closed; the
high-water mark `totalRegs_` is only raised on closing. `FunctionEmitter` reads
it when the last scope of the function is gone.

## Main definitions

* `RegCounter` — `usedRegs_` and `totalRegs_` with `AllocReg` and `~RegScope`.
* `RegState` — the counter together with the scopes that are open and the
  registers each of them owns.
* `peak` — how many registers a sequence of operations keeps at once, counted
  without any machine width.
-/

namespace ArkTs2abc.Es2panda

/-- `using VReg = uint16_t`. -/
abbrev VReg := UInt16

/-- The register counters of `PandaGen`. -/
structure RegCounter where
  usedRegs : UInt32 := 0
  totalRegs : UInt32 := 0
  deriving DecidableEq, Repr

namespace RegCounter

/-- `PandaGen::AllocReg`: the 32-bit counter is narrowed to a `VReg` on the way out. -/
def allocReg (c : RegCounter) : VReg × RegCounter :=
  (c.usedRegs.toUInt16, { c with usedRegs := c.usedRegs + 1 })

/-- `PandaGen::NextReg`. -/
def nextReg (c : RegCounter) : VReg := c.usedRegs.toUInt16

/-- `RegScope::~RegScope` of a scope opened when the counter stood at `regBase`. -/
def closeScope (c : RegCounter) (regBase : UInt32) : RegCounter :=
  { usedRegs := regBase, totalRegs := max c.totalRegs c.usedRegs }

end RegCounter

/-- What the compilation of a function does to its registers. -/
inductive RegOp where
  | openScope | allocReg | closeScope
  deriving DecidableEq, Repr

/-- An open `RegScope` and the registers handed out since it was opened, newest first. -/
structure OpenScope where
  regBase : UInt32
  regs : List VReg := []
  deriving DecidableEq, Repr

/-- The counter, the open scopes (innermost first) and every register handed out so far. -/
structure RegState where
  counter : RegCounter := {}
  scopes : List OpenScope := []
  handedOut : List VReg := []
  deriving DecidableEq, Repr

namespace RegState

/-- The registers that are live: those of the scopes still open. -/
def live (s : RegState) : List VReg := s.scopes.flatMap OpenScope.regs

/-- One operation. A register is only allocated while a scope is open
(`FunctionRegScope` is the outermost one), and only an open scope is closed. -/
def step (s : RegState) : RegOp → Option RegState
  | .openScope => some { s with scopes := { regBase := s.counter.usedRegs } :: s.scopes }
  | .allocReg =>
    match s.scopes with
    | [] => none
    | sc :: scs =>
      let (reg, counter) := s.counter.allocReg
      some { counter, scopes := { sc with regs := reg :: sc.regs } :: scs,
             handedOut := reg :: s.handedOut }
  | .closeScope =>
    match s.scopes with
    | [] => none
    | sc :: scs => some { s with counter := s.counter.closeScope sc.regBase, scopes := scs }

def run (s : RegState) (ops : List RegOp) : Option RegState := ops.foldlM step s

theorem run_cons (s : RegState) (op : RegOp) (ops : List RegOp) :
    s.run (op :: ops) = (s.step op).bind (·.run ops) := rfl

end RegState

/-! ## Demand -/

/-- The number of registers each open scope owns, with no bound on any of them. -/
def demand : List ℕ → RegOp → Option (List ℕ)
  | l, .openScope => some (0 :: l)
  | n :: l, .allocReg => some ((n + 1) :: l)
  | _ :: l, .closeScope => some l
  | [], _ => none

/-- The largest number of registers live at once while `ops` runs. -/
def peak : List ℕ → List RegOp → ℕ
  | l, [] => l.sum
  | l, op :: ops =>
    match demand l op with
    | some l' => max l.sum (peak l' ops)
    | none => l.sum

theorem sum_le_peak (l : List ℕ) (ops : List RegOp) : l.sum ≤ peak l ops := by
  cases ops with
  | nil => exact le_rfl
  | cons op ops => unfold peak; split <;> simp

theorem peak_le_append (l : List ℕ) (pre rest : List RegOp) :
    peak l pre ≤ peak l (pre ++ rest) := by
  induction pre generalizing l with
  | nil => exact sum_le_peak l rest
  | cons op pre ih =>
    rw [List.cons_append, peak, peak]
    split
    · next l' _ => exact max_le_max_left _ (ih l')
    · exact le_rfl

variable {l : List ℕ} {ops : List RegOp} {s final : RegState}

theorem exists_prefix_of_lt_peak {k : ℕ} (h : k < peak l ops) :
    ∃ pre l', pre <+: ops ∧ pre.foldlM demand l = some l' ∧ k < l'.sum := by
  induction ops generalizing l with
  | nil => exact ⟨[], l, List.prefix_rfl, rfl, h⟩
  | cons op ops ih =>
    by_cases hk : k < l.sum
    · exact ⟨[], l, List.nil_prefix, rfl, hk⟩
    · unfold peak at h
      split at h
      · next l₁ hl =>
        obtain ⟨pre, l', hpre, hrun, hlt⟩ := ih (l := l₁) (by omega)
        refine ⟨op :: pre, l', List.cons_prefix_cons.mpr ⟨rfl, hpre⟩, ?_, hlt⟩
        rw [List.foldlM_cons, hl]
        exact hrun
      · omega

/-! ## The counter follows the demand -/

theorem RegState.step_lengths {s' : RegState} {op : RegOp} (h : s.step op = some s') :
    demand (s.scopes.map (·.regs.length)) op = some (s'.scopes.map (·.regs.length)) := by
  cases op with
  | openScope => cases h; rfl
  | allocReg =>
    cases hs : s.scopes with
    | nil => simp [step, hs] at h
    | cons sc scs => simp only [step, hs, Option.some.injEq] at h; subst h; rfl
  | closeScope =>
    cases hs : s.scopes with
    | nil => simp [step, hs] at h
    | cons sc scs => simp only [step, hs, Option.some.injEq] at h; subst h; rfl

theorem RegState.run_prefix {pre : List RegOp} {l' : List ℕ} (hrun : s.run ops = some final)
    (hpre : pre <+: ops) (hl : pre.foldlM demand (s.scopes.map (·.regs.length)) = some l') :
    ∃ s', s.run pre = some s' ∧ s'.scopes.map (·.regs.length) = l' := by
  induction pre generalizing s ops with
  | nil => cases hl; exact ⟨s, rfl, rfl⟩
  | cons op pre ih =>
    obtain ⟨ops', rfl⟩ := hpre
    rw [List.cons_append, run_cons, Option.bind_eq_some_iff] at hrun
    obtain ⟨s₁, hstep, hrest⟩ := hrun
    rw [List.foldlM_cons, step_lengths hstep] at hl
    obtain ⟨s', hs', hl'⟩ := ih hrest (List.prefix_append pre ops') hl
    exact ⟨s', by rw [run_cons, hstep]; exact hs', hl'⟩

/-- Each open scope starts where the scopes below it end and owns the next
registers in order. -/
def ScopesOk : List OpenScope → List ℕ → Prop
  | [], [] => True
  | sc :: scs, n :: l =>
    sc.regBase.toNat = l.sum ∧
      sc.regs.map UInt16.toNat = (List.range' l.sum n).reverse ∧ ScopesOk scs l
  | _, _ => False

theorem ScopesOk.lengths {scs : List OpenScope} (h : ScopesOk scs l) :
    scs.map (·.regs.length) = l := by
  induction scs generalizing l with
  | nil => cases l with
    | nil => rfl
    | cons => exact h.elim
  | cons sc scs ih =>
    cases l with
    | nil => exact h.elim
    | cons n l =>
      have hlen := congrArg List.length h.2.1
      simp only [List.length_map, List.length_reverse, List.length_range'] at hlen
      rw [List.map_cons, hlen, ih h.2.2]

/-- The 16-bit registers and the 32-bit counter agree with the unbounded demand `l`. -/
structure Tracks (l : List ℕ) (s : RegState) : Prop where
  used : s.counter.usedRegs.toNat = l.sum
  scopes : ScopesOk s.scopes l
  handedOut : ∀ v ∈ s.handedOut,
    v.toNat < max s.counter.totalRegs.toNat s.counter.usedRegs.toNat

theorem Tracks.init : Tracks [] {} := ⟨rfl, trivial, by simp⟩

private theorem toNat_max (a b : UInt32) : (max a b).toNat = max a.toNat b.toNat := by
  show (if a ≤ b then b else a).toNat = _
  split
  · next h => rw [UInt32.le_iff_toNat_le] at h; omega
  · next h => rw [UInt32.le_iff_toNat_le] at h; omega

/-- While at most `2 ^ 16` registers are live, one operation keeps the agreement. -/
theorem Tracks.step {l' : List ℕ} {s' : RegState} {op : RegOp} (h : Tracks l s)
    (hs : s.step op = some s') (hl : demand l op = some l') (hle : l'.sum ≤ 2 ^ 16) :
    Tracks l' s' := by
  obtain ⟨hused, hscopes, hhand⟩ := h
  cases op with
  | openScope =>
    cases hs; cases hl
    exact ⟨by simpa using hused, ⟨hused, by simp, hscopes⟩, hhand⟩
  | allocReg =>
    cases hsc : s.scopes with
    | nil => simp [RegState.step, hsc] at hs
    | cons sc scs =>
      rw [hsc] at hscopes
      cases l with
      | nil => cases hl
      | cons n l =>
        cases hl
        obtain ⟨hbase, hregs, hrest⟩ := hscopes
        simp only [RegState.step, hsc, RegCounter.allocReg, Option.some.injEq] at hs
        subst hs
        simp only [List.sum_cons] at hused hle
        -- the counter is below `2 ^ 16`, so neither the narrowing nor the increment wraps
        have hreg : s.counter.usedRegs.toUInt16.toNat = l.sum + n := by
          rw [UInt32.toNat_toUInt16, hused, Nat.mod_eq_of_lt (by omega)]
          omega
        have hnext : (s.counter.usedRegs + 1).toNat = l.sum + n + 1 := by
          rw [UInt32.toNat_add, hused, UInt32.toNat_one, Nat.mod_eq_of_lt (by omega)]
          omega
        refine ⟨?_, ⟨hbase, ?_, hrest⟩, ?_⟩
        · rw [hnext, List.sum_cons]
          omega
        · rw [List.map_cons, hregs, hreg, List.range'_concat, List.reverse_append]
          simp
        · intro v hv
          rw [hnext]
          rcases List.mem_cons.mp hv with rfl | hv
          · rw [hreg]
            omega
          · have := hhand v hv
            dsimp only
            omega
  | closeScope =>
    cases hsc : s.scopes with
    | nil => simp [RegState.step, hsc] at hs
    | cons sc scs =>
      rw [hsc] at hscopes
      cases l with
      | nil => cases hl
      | cons n l =>
        cases hl
        obtain ⟨hbase, -, hrest⟩ := hscopes
        simp only [RegState.step, hsc, RegCounter.closeScope, Option.some.injEq] at hs
        subst hs
        refine ⟨hbase, hrest, fun v hv => ?_⟩
        have := hhand v hv
        dsimp only
        rw [toNat_max]
        omega

theorem Tracks.run (h : Tracks l s) (hrun : s.run ops = some final) (hpeak : peak l ops ≤ 2 ^ 16) :
    ∃ l', Tracks l' final := by
  induction ops generalizing l s with
  | nil => cases hrun; exact ⟨l, h⟩
  | cons op ops ih =>
    rw [RegState.run_cons, Option.bind_eq_some_iff] at hrun
    obtain ⟨s₁, hstep, hrest⟩ := hrun
    have hd : demand l op = some (s₁.scopes.map (·.regs.length)) := by
      rw [← h.scopes.lengths]
      exact RegState.step_lengths hstep
    have hpk : max l.sum (peak (s₁.scopes.map (·.regs.length)) ops) ≤ 2 ^ 16 := by
      simpa only [peak, hd] using hpeak
    have hle := (le_max_right _ _).trans hpk
    exact ih (h.step hstep hd ((sum_le_peak _ _).trans hle)) hrest hle

theorem ScopesOk.live {scs : List OpenScope} (h : ScopesOk scs l) :
    (scs.flatMap OpenScope.regs).map UInt16.toNat = (List.range l.sum).reverse := by
  induction scs generalizing l with
  | nil => cases l with
    | nil => rfl
    | cons => exact h.elim
  | cons sc scs ih =>
    cases l with
    | nil => exact h.elim
    | cons n l =>
      obtain ⟨-, hregs, hrest⟩ := h
      have hsplit : List.range (n :: l).sum = List.range l.sum ++ List.range' l.sum n := by
        rw [List.sum_cons, Nat.add_comm, List.range_add]
        simp [List.range'_eq_map_range]
      rw [List.flatMap_cons, List.map_append, hregs, ih hrest, hsplit, List.reverse_append]

theorem Tracks.live_nodup (h : Tracks l s) : s.live.Nodup := by
  refine List.Nodup.of_map UInt16.toNat ?_
  rw [RegState.live, h.scopes.live, List.nodup_reverse]
  exact List.nodup_range

/-- More than `2 ^ 16` registers cannot be told apart by their `VReg`. -/
theorem length_le_of_nodup {regs : List VReg} (h : regs.Nodup) : regs.length ≤ 2 ^ 16 := by
  have hinj : Function.Injective UInt16.toFin := fun a b hab => UInt16.toFin_inj.mp hab
  have := (h.map hinj).length_le_card
  simpa [UInt16.size] using this

/-! ## Register discipline of a whole compilation -/

/-- Live registers are distinct after every prefix of the run, and every register
ever handed out is below the total the function is emitted with. -/
def RegisterDiscipline (ops : List RegOp) (final : RegState) : Prop :=
  (∀ pre s, pre <+: ops → RegState.run {} pre = some s → s.live.Nodup) ∧
    ∀ v ∈ final.handedOut, v.toNat < final.counter.totalRegs.toNat

theorem registerDiscipline_of_peak (hrun : RegState.run {} ops = some final)
    (hclosed : final.scopes = []) (hpeak : peak [] ops ≤ 2 ^ 16) :
    RegisterDiscipline ops final := by
  constructor
  · rintro pre s ⟨rest, rfl⟩ hs
    obtain ⟨l, hl⟩ := Tracks.init.run hs ((peak_le_append [] pre rest).trans hpeak)
    exact hl.live_nodup
  · obtain ⟨l, hl⟩ := Tracks.init.run hrun hpeak
    have hnil : l = [] := by simpa [hclosed] using hl.scopes.lengths.symm
    intro v hv
    have hlt := hl.handedOut v hv
    rw [hl.used, hnil] at hlt
    simpa using hlt

theorem peak_of_registerDiscipline (hrun : RegState.run {} ops = some final)
    (h : RegisterDiscipline ops final) :
    peak [] ops ≤ 2 ^ 16 := by
  by_contra hlt
  obtain ⟨pre, l', hpre, hl', hsum⟩ := exists_prefix_of_lt_peak (Nat.lt_of_not_le hlt)
  obtain ⟨s, hs, hlen⟩ := RegState.run_prefix hrun hpre hl'
  have hlive : s.live.length = l'.sum := by
    rw [RegState.live, List.length_flatMap, hlen]
  have := length_le_of_nodup (h.1 pre s hpre hs)
  omega

/-- Registers stay distinct, and below the emitted total, in exactly the compilations
that never keep more than `2 ^ 16` of them: `AllocReg` has no check of its own. -/
theorem registerDiscipline_iff_peak (ops : List RegOp) (final : RegState)
    (hrun : RegState.run {} ops = some final) (hclosed : final.scopes = []) :
    RegisterDiscipline ops final ↔ peak [] ops ≤ 2 ^ 16 :=
  ⟨peak_of_registerDiscipline hrun, registerDiscipline_of_peak hrun hclosed⟩

theorem registerDiscipline_iff_peak_single :
    RegisterDiscipline [.openScope, .allocReg, .closeScope]
        { counter := ⟨0, 1⟩, scopes := [], handedOut := [0] } ↔
      peak [] [.openScope, .allocReg, .closeScope] ≤ 2 ^ 16 :=
  registerDiscipline_iff_peak _ _ (by decide) rfl

/-- A function body that opens its scope, asks for `n` registers and closes it again. -/
def flatBody (n : ℕ) : List RegOp := RegOp.openScope :: List.replicate n RegOp.allocReg ++ [RegOp.closeScope]

theorem peak_flatBody (n : ℕ) : n ≤ peak [] (flatBody n) := by
  have key : ∀ n k, k + n ≤ peak [k] (List.replicate n RegOp.allocReg ++ [RegOp.closeScope]) := by
    intro n
    induction n with
    | zero => intro k; simpa using sum_le_peak [k] [.closeScope]
    | succ n ih =>
      intro k
      have := ih (k + 1)
      rw [List.replicate_succ, List.cons_append, peak]
      simp only [demand]
      omega
  have := key n 0
  rw [flatBody, List.cons_append, peak]
  simp only [demand]
  omega

theorem run_flatBody (n : ℕ) : ∃ final, RegState.run {} (flatBody n) = some final ∧
    final.scopes = [] := by
  have key : ∀ (n : ℕ) (s : RegState) (sc : OpenScope), s.scopes = [sc] →
      ∃ final, s.run (List.replicate n RegOp.allocReg ++ [RegOp.closeScope]) = some final ∧
        final.scopes = [] := by
    intro n
    induction n with
    | zero =>
      intro s sc hs
      exact ⟨{ s with counter := s.counter.closeScope sc.regBase, scopes := [] },
        by simp [RegState.run, RegState.step, hs], rfl⟩
    | succ n ih =>
      intro s sc hs
      let reg := s.counter.allocReg
      obtain ⟨final, hf, hc⟩ := ih
        { counter := reg.2, scopes := [{ sc with regs := reg.1 :: sc.regs }],
          handedOut := reg.1 :: s.handedOut } _ rfl
      refine ⟨final, ?_, hc⟩
      rw [List.replicate_succ, List.cons_append, RegState.run_cons]
      simp only [RegState.step, hs]
      exact hf
  exact key n { scopes := [{ regBase := 0 }] } _ rfl

/-- A call with `2 ^ 16` arguments needs a register for the callee as well, and the
counter hands out register zero a second time. -/
theorem not_registerDiscipline :
    ¬ ∀ ops final, RegState.run {} ops = some final → final.scopes = [] →
      RegisterDiscipline ops final := by
  intro h
  obtain ⟨final, hrun, hclosed⟩ := run_flatBody (2 ^ 16 + 1)
  have hle := peak_of_registerDiscipline hrun (h _ final hrun hclosed)
  have := peak_flatBody (2 ^ 16 + 1)
  omega

end ArkTs2abc.Es2panda
