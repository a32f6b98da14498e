import ArkTs2abc.RegMachine.Block
import ArkTs2abc.Ts2panda.ExceptionalExit

/-!
# Range instructions

A range instruction reads registers of its own and a range of registers. Its format has one item for
the range, and only the first register is encoded. The allocator looks at the first register operand
to decide whether the range is to be moved, which is not the range in
`ecma.createobjectwithexcludedkeys`, and `ecma.supercall` is no range instruction for it.

## Main definitions

* `RangeInsn` — a range instruction.
* `RangeInsn.Adjusted` — the code encodes registers that fit, and does what the instruction does.

## Main results

* `RangeInsn.adjusted_iff` — when that is so.
-/

namespace ArkTs2abc.Ts2panda

open RegMachine

/-- The classes of the instructions that read a range of registers. -/
inductive RangeKind where
  | EcmaCallirangedyn
  | EcmaCallithisrangedyn
  | EcmaNewobjdynrange
  | EcmaCreateobjectwithexcludedkeys (obj : ℕ)
  | EcmaSupercall
  deriving DecidableEq, Repr

namespace RangeKind

def isRangeInst : RangeKind → Bool
  | EcmaSupercall => false
  | _ => true

def getRangeStartVregPos : RangeKind → ℕ
  | EcmaCreateobjectwithexcludedkeys _ => 2
  | _ => 1

/-- The registers in front of the range. -/
def leading : RangeKind → List ℕ
  | EcmaCreateobjectwithexcludedkeys obj => [obj]
  | _ => []

@[simp] theorem getRangeStartVregPos_eq (k : RangeKind) :
    k.getRangeStartVregPos = k.leading.length + 1 := by
  cases k <;> rfl

/-- A number of arguments, the registers in front of the range and the range. -/
def format (k : RangeKind) (immWidth width : ℕ) : Format :=
  (.Imm, immWidth) :: k.leading.map (fun _ => (.SrcVReg, width)) ++ [(.SrcVReg, width)]

end RangeKind

/-- So many registers from one on. -/
def rangeFrom (start : ℕ) : ℕ → List ℕ
  | 0 => []
  | n + 1 => start :: rangeFrom (start + 1) n

theorem mem_rangeFrom {start n r : ℕ} : r ∈ rangeFrom start n ↔ start ≤ r ∧ r < start + n := by
  induction n generalizing start with
  | zero => simp [rangeFrom]
  | succ n ih =>
    rw [rangeFrom, List.mem_cons, ih]
    omega

@[simp] theorem length_rangeFrom (start n : ℕ) : (rangeFrom start n).length = n := by
  induction n generalizing start with
  | zero => rfl
  | succ n ih => simp [rangeFrom, ih]

theorem pairwise_rangeFrom (start n : ℕ) : (rangeFrom start n).Pairwise (· < ·) := by
  induction n generalizing start with
  | zero => exact .nil
  | succ n ih =>
    refine .cons ?_ (ih (start + 1))
    intro r hr
    exact (mem_rangeFrom.mp hr).1

/-- A range instruction, which encodes its registers in one width. -/
structure RangeInsn where
  kind : RangeKind
  start : ℕ
  count : ℕ
  immWidth : ℕ
  width : ℕ
  width_mem : width ∈ [4, 8, 16]

namespace RangeInsn

variable (f : RangeInsn)

def range : List ℕ := rangeFrom f.start f.count

def format : Format := f.kind.format f.immWidth f.width

theorem mem_format {item : OperandKind × ℕ} (h : item ∈ f.format) :
    item = (.Imm, f.immWidth) ∨ item = (.SrcVReg, f.width) := by
  simp only [format, RangeKind.format, List.cons_append, List.mem_cons, List.mem_append,
    List.mem_map, List.not_mem_nil, or_false] at h
  grind

def op : Opcode where
  formats := [f.format]
  kinds := f.format.map Prod.fst
  formats_ne_nil := List.cons_ne_nil _ _
  kinds_eq := by simp
  width_mem := by
    intro format hformat item hitem hreg
    obtain rfl := List.mem_singleton.mp hformat
    rcases f.mem_format hitem with rfl | rfl
    · cases hreg
    · exact f.width_mem
  dst_width := by
    intro format hformat i hi j hj hdst
    obtain rfl := List.mem_singleton.mp hformat
    rcases f.mem_format hi with rfl | rfl <;> cases hdst

/-- The register operands: of a super call only the first register of the range is one. -/
def vregs : List ℕ :=
  f.kind.leading ++ if f.kind.isRangeInst then f.range else [f.start]

def node : IRNode where
  op := f.op
  operands := .other :: f.vregs.map .vreg
  rangeStart := if f.kind.isRangeInst then some f.kind.getRangeStartVregPos else none
  typed := by
    intro k n h
    simp only [op, format, RangeKind.format, List.cons_append, List.map_cons, List.zip_cons_cons,
      List.mem_cons, Prod.mk.injEq, reduceCtorEq, and_false, false_or] at h
    have hk := (List.of_mem_zip h).1
    simp only [List.map_append, List.map_map, List.mem_append, List.mem_map, List.map_cons,
      List.map_nil, List.mem_cons, List.not_mem_nil, or_false] at hk
    grind [OperandKind.isVReg]

/-- The registers that the instruction reads are registers of the function. -/
def RegistersLt (total : ℕ) : Prop :=
  (∀ r ∈ f.kind.leading ++ f.range, r < total) ∧ f.start < total

end RangeInsn

/-- The registers among some operands. -/
def vregsOf (operands : List OperandType) : List ℕ :=
  operands.filterMap fun o => match o with
    | .vreg n => some n
    | .other => none

@[simp] theorem vregsOf_other (os : List OperandType) : vregsOf (.other :: os) = vregsOf os := rfl

@[simp] theorem vregsOf_map (ns : List ℕ) : vregsOf (ns.map .vreg) = ns := by
  induction ns with
  | nil => rfl
  | cons n ns ih => exact congrArg (n :: ·) ih

/-- The meaning of a range instruction: from the accumulator, its own registers and the registers of
its range to the new accumulator; `none` when it throws. -/
abbrev RangeSem (V : Type) := V → List V → List V → Option V

namespace RangeInsn

variable (f : RangeInsn) {V : Type}

/-- The registers that are encoded: those in front of the range, and the first one of it. -/
def encoded (operands : List OperandType) : List ℕ :=
  (vregsOf operands).take (f.kind.leading.length + 1)

/-- Running the instruction, which finds its range behind the first register. -/
def execNode (sem : RangeSem V) (operands : List OperandType) (m : RegFile ℕ V) :
    Option (RegFile ℕ V) :=
  (sem m.acc ((f.encoded operands).take f.kind.leading.length |>.map m.regs)
    ((rangeFrom ((f.encoded operands).getD f.kind.leading.length 0) f.count).map m.regs)).map
      fun acc => { m with acc }

/-- Running emitted code, where every node is the range instruction. -/
def exec (sem : RangeSem V) : List Emitted → RegFile ℕ V → Option (RegFile ℕ V)
  | [], m => some m
  | .movDyn dst src :: code, m => exec sem code (m.set dst (m.regs src))
  | .node _ operands :: code, m => (f.execNode sem operands m).bind (exec sem code)

/-- What the instruction does: it reads its registers and answers in the accumulator. -/
def execUnadjusted (sem : RangeSem V) (m : RegFile ℕ V) : Option (RegFile ℕ V) :=
  (sem m.acc (f.kind.leading.map m.regs) (f.range.map m.regs)).map fun acc => { m with acc }

/-- All encoded registers fit the format. -/
def Fits (code : List Emitted) : Prop :=
  ∀ op operands, .node op operands ∈ code → ∀ r ∈ f.encoded operands, r < 2 ^ f.width

/-- The code completes when the instruction does, with the same accumulator and the same registers
of the function. -/
def Simulates (total : ℕ) (code : List Emitted) : Prop :=
  ∀ (V : Type) (sem : RangeSem V) (m : RegFile ℕ V),
    Option.Rel (RegFile.AgreeOn (· < total)) (f.execUnadjusted sem m) (f.exec sem code m)

/-- The code that the allocator emits between two states. -/
def Adjusted (total : ℕ) (a a' : RegAllocator) : Prop :=
  ∃ code, a'.newInsns = a.newInsns ++ code ∧ f.Fits code ∧ f.Simulates total code

/-- The instructions that are adjusted well. -/
def handled : Prop :=
  match f.kind with
  | .EcmaCreateobjectwithexcludedkeys obj => obj < 2 ^ f.width ∧ f.start < 2 ^ f.width
  | .EcmaSupercall => f.start < 2 ^ f.width ∨ f.count ≤ 1
  | _ => True

/-! ### Running the code -/

section Exec

variable {f} (sem : RangeSem V)

theorem encoded_eq (r : ℕ) (rest : List ℕ) :
    f.encoded (.other :: (f.kind.leading ++ r :: rest).map .vreg) = f.kind.leading ++ [r] := by
  rw [encoded, vregsOf_other, vregsOf_map, List.take_length_add_append, List.take_one]
  rfl

theorem execNode_eq (r : ℕ) (rest : List ℕ) (m : RegFile ℕ V) :
    f.execNode sem (.other :: (f.kind.leading ++ r :: rest).map .vreg) m =
      (sem m.acc (f.kind.leading.map m.regs) ((rangeFrom r f.count).map m.regs)).map
        fun acc => { m with acc } := by
  rw [execNode, encoded_eq]
  simp

theorem eq_movDyn_cons {l : List Emitted} {dst src : ℕ} {code : List (Instr ℕ)}
    (h : l.map Emitted.toInstr = .mov dst src :: code) :
    ∃ l', l = .movDyn dst src :: l' ∧ l'.map Emitted.toInstr = code := by
  obtain ⟨e, l', rfl, he, hcode⟩ := List.map_eq_cons_iff.mp h
  cases e with
  | movDyn d s =>
    cases he
    exact ⟨l', rfl, hcode⟩
  | node op operands => cases he

theorem exec_head {slots : List (Slot ℕ)} {head : List Emitted}
    (h : head.map Emitted.toInstr = slots.flatMap Slot.head) (code : List Emitted)
    (m : RegFile ℕ V) : f.exec sem (head ++ code) m = f.exec sem code (enterAll slots m) := by
  induction slots generalizing head m with
  | nil =>
    obtain rfl := List.map_eq_nil_iff.mp h
    rfl
  | cons s slots ih =>
    rw [List.flatMap_cons, Slot.head, List.cons_append] at h
    obtain ⟨head, rfl, h₁⟩ := eq_movDyn_cons h
    rw [enterAll, Slot.enter]
    cases hsrc : s.isSrc with
    | true =>
      rw [hsrc] at h₁
      obtain ⟨head, rfl, h₂⟩ := eq_movDyn_cons h₁
      exact ih h₂ _
    | false =>
      rw [hsrc] at h₁
      exact ih h₁ _

theorem exec_tail {slots : List (Slot ℕ)} {tail : List Emitted}
    (h : tail.map Emitted.toInstr = slots.flatMap Slot.tail) (m : RegFile ℕ V) :
    f.exec sem tail m = some (leaveAll slots m) := by
  induction slots generalizing tail m with
  | nil =>
    obtain rfl := List.map_eq_nil_iff.mp h
    rfl
  | cons s slots ih =>
    rw [List.flatMap_cons, Slot.tail, List.append_assoc] at h
    rw [leaveAll, Slot.leave]
    cases hdst : s.isDst with
    | true =>
      rw [hdst] at h
      obtain ⟨tail, rfl, h₁⟩ := eq_movDyn_cons h
      obtain ⟨tail, rfl, h₂⟩ := eq_movDyn_cons h₁
      exact ih h₂ _
    | false =>
      rw [hdst] at h
      obtain ⟨tail, rfl, h₁⟩ := eq_movDyn_cons h
      exact ih h₁ _

end Exec

/-- The range has been moved into the registers from `tmp` on. -/
structure Moved (total : ℕ) (slots : List (Slot ℕ)) (tmp : ℕ) : Prop where
  movable : Movable slots
  tmp_eq : (slots.map Slot.tmp).take f.count = rangeFrom tmp f.count
  origin_eq : (slots.map Slot.origin).take f.count = f.range
  spill_ge : ∀ s ∈ slots, total ≤ s.spill

variable {f}

/-- An instruction over a range that has been moved, with registers in front that have not. -/
theorem simulates_of_moved {total tmp : ℕ} {slots : List (Slot ℕ)} {head tail : List Emitted}
    (hmoved : f.Moved total slots tmp)
    (hhead : head.map Emitted.toInstr = slots.flatMap Slot.head)
    (htail : tail.map Emitted.toInstr = slots.flatMap Slot.tail)
    (hlt : f.RegistersLt total) (hleading : ∀ r ∈ f.kind.leading, r ∉ slots.map Slot.tmp)
    (op : Opcode) (rest : List ℕ) :
    f.Simulates total
      (head ++ Emitted.node op (.other :: (f.kind.leading ++ tmp :: rest).map .vreg) :: tail) := by
  intro V sem m
  have hspill {r : ℕ} (hr : r < total) : ∀ s ∈ slots, r ≠ s.spill := by
    intro s hs
    have := hmoved.spill_ge s hs
    omega
  have hrange : (rangeFrom tmp f.count).map (enterAll slots m).regs = f.range.map m.regs := by
    rw [← hmoved.tmp_eq, ← hmoved.origin_eq, List.map_take, List.map_take, List.map_map,
      List.map_map]
    congr 1
    apply List.map_congr_left
    intro s hs
    exact hmoved.movable.enterAll_tmp hs
  have hown : f.kind.leading.map (enterAll slots m).regs = f.kind.leading.map m.regs := by
    apply List.map_congr_left
    intro r hr
    apply enterAll_regs_of_ne
    · intro s hs heq
      apply hleading r hr
      rw [heq]
      exact List.mem_map_of_mem hs
    · exact hspill (hlt.1 r (List.mem_append_left _ hr))
  rw [exec_head sem hhead, exec, execNode_eq, hrange, hown, enterAll_acc]
  unfold execUnadjusted
  cases sem m.acc (f.kind.leading.map m.regs) (f.range.map m.regs) with
  | none => exact .none
  | some acc =>
    simp only [Option.map_some, Option.bind_some, exec_tail sem htail]
    refine .some ⟨by rw [leaveAll_acc], ?_⟩
    intro r hr
    symm
    apply hmoved.movable.leaveAll_regs
    · intro s hs
      exact hmoved.movable.enterAll_spill hs
    · intro hne
      exact enterAll_regs_of_ne hne (hspill hr)

theorem simulates_node {total : ℕ} (op : Opcode) (rest : List ℕ) :
    f.Simulates total [.node op (.other :: (f.kind.leading ++ f.start :: rest).map .vreg)] := by
  intro V sem m
  rw [exec, execNode_eq]
  unfold execUnadjusted range
  cases sem m.acc (f.kind.leading.map m.regs) ((rangeFrom f.start f.count).map m.regs) with
  | none => exact .none
  | some acc => exact .some ⟨rfl, fun r _ => rfl⟩

theorem fits_iff {head tail : List Emitted} {op : Opcode} {r : ℕ} {rest : List ℕ}
    (hhead : ∀ op operands, .node op operands ∉ head)
    (htail : ∀ op operands, .node op operands ∉ tail) :
    f.Fits (head ++ Emitted.node op (.other :: (f.kind.leading ++ r :: rest).map .vreg) :: tail) ↔
      ∀ reg ∈ f.kind.leading ++ [r], reg < 2 ^ f.width := by
  rw [← encoded_eq r rest]
  constructor
  · intro h
    exact h op _ (List.mem_append_right _ List.mem_cons_self)
  · intro h op' operands hmem
    rcases List.mem_append.mp hmem with hmem | hmem
    · exact absurd hmem (hhead op' operands)
    · rcases List.mem_cons.mp hmem with heq | hmem
      · cases heq
        exact h
      · exact absurd hmem (htail op' operands)

theorem node_notMem_of_head {slots : List (Slot ℕ)} {head : List Emitted}
    (h : head.map Emitted.toInstr = slots.flatMap Slot.head) (op : Opcode)
    (operands : List OperandType) : .node op operands ∉ head := by
  intro hmem
  have hnode := List.mem_map_of_mem (f := Emitted.toInstr) hmem
  rw [h] at hnode
  obtain ⟨s, -, hs⟩ := List.mem_flatMap.mp hnode
  unfold Slot.head at hs
  grind [Emitted.toInstr]

theorem node_notMem_of_tail {slots : List (Slot ℕ)} {tail : List Emitted}
    (h : tail.map Emitted.toInstr = slots.flatMap Slot.tail) (op : Opcode)
    (operands : List OperandType) : .node op operands ∉ tail := by
  intro hmem
  have hnode := List.mem_map_of_mem (f := Emitted.toInstr) hmem
  rw [h] at hnode
  obtain ⟨s, -, hs⟩ := List.mem_flatMap.mp hnode
  unfold Slot.tail at hs
  grind [Emitted.toInstr]

end RangeInsn

/-! ### What the allocator does -/

namespace RegAllocator

variable {total : ℕ} {a a' : RegAllocator}

/-- The state in which a function of `total` registers starts to be adjusted. -/
def initial (total : ℕ) : RegAllocator where
  usedVreg := List.replicate total false

theorem allocAll_initial {m n : ℕ} (h : m + n ≤ maxVRegC) :
    (initial m).allocAll n = some (initial (m + n)) := by
  induction n generalizing m with
  | zero => rfl
  | succ n ih =>
    have hroom : ¬ maxVRegC ≤ m := by omega
    have hone : (initial m).allocIndexForVreg = some (m, initial (m + 1)) := by
      simp [allocIndexForVreg, initial, hroom, List.replicate_succ']
    have hrest := ih (m := m + 1) (by omega)
    rw [Nat.add_right_comm] at hrest
    rw [allocAll, hone]
    exact hrest

theorem initial_reachable (h : total ≤ maxVRegC) : (initial total).Reachable total := by
  have halloc := @allocAll_initial 0 total (by omega)
  rw [Nat.zero_add] at halloc
  exact ⟨initial total, [], halloc, by simp, rfl⟩

/-- The loop over a range makes a slot for each register, in this order. -/
theorem rangeLoop_rangeFrom {tmp start count : ℕ} {r : Adjustment}
    (h : a.rangeLoop tmp ((rangeFrom start count).map .vreg) = some (r, a')) :
    ∃ slots : List (Slot ℕ), r.head.map Emitted.toInstr = slots.flatMap Slot.head ∧
      r.tail.map Emitted.toInstr = slots.flatMap Slot.tail ∧ r.spills = slots.map Slot.spill ∧
      r.operands = (rangeFrom tmp count).map .vreg ∧
      slots.map Slot.tmp = rangeFrom tmp count ∧ slots.map Slot.origin = rangeFrom start count ∧
      ∀ s ∈ slots, s.isSrc ∧ s.isDst = false ∧ s.origin + tmp = s.tmp + start := by
  induction count generalizing a tmp start r with
  | zero =>
    obtain ⟨rfl, -⟩ : { operands := [] } = r ∧ a = a' := by simpa [rangeFrom, rangeLoop] using h
    exact ⟨[], rfl, rfl, rfl, rfl, rfl, rfl, by simp⟩
  | succ count ih =>
    simp only [rangeFrom, List.map_cons, rangeLoop, Option.bind_eq_bind, Option.bind_eq_some_iff,
      Prod.exists] at h
    obtain ⟨s, a₁, -, h⟩ := h
    split at h
    · simp only [Option.bind_eq_some_iff, Option.some.injEq, Prod.mk.injEq, Prod.exists] at h
      obtain ⟨r', a₂, hloop, rfl, rfl⟩ := h
      obtain ⟨slots, hhead, htail, hspills, hoperands, htmp, horigin, hslots⟩ := ih hloop
      refine ⟨⟨start, tmp, s, true, false⟩ :: slots, ?_, ?_, ?_, ?_, ?_, ?_, ?_⟩
      · rw [map_toInstr_addSpill_head, hhead, List.flatMap_cons]
        rfl
      · rw [map_toInstr_addSpill_tail, htail, List.flatMap_cons]
        rfl
      · exact congrArg (s :: ·) hspills
      · exact congrArg (.vreg tmp :: ·) hoperands
      · exact congrArg (tmp :: ·) htmp
      · exact congrArg (start :: ·) horigin
      · refine List.forall_mem_cons.mpr ⟨⟨rfl, rfl, Nat.add_comm start tmp⟩, ?_⟩
        intro s' hs'
        obtain ⟨hsrc, hdst, heq⟩ := hslots s' hs'
        exact ⟨hsrc, hdst, by omega⟩
    · cases h

/-- The slots of a range can be entered one after the other when the range is moved downwards. -/
theorem movable_of_taken {tmp start count : ℕ} {slots : List (Slot ℕ)}
    (htmp : slots.map Slot.tmp = rangeFrom tmp count)
    (hslots : ∀ s ∈ slots, s.isSrc ∧ s.isDst = false ∧ s.origin + tmp = s.tmp + start)
    (htaken : Taken total a a' (slots.map Slot.spill)) (hle : tmp ≤ start)
    (hlt : ∀ s ∈ slots, s.origin < total) : Movable slots := by
  have hge : ∀ s ∈ slots, total ≤ s.spill := by
    intro s hs
    exact (htaken.ge _ (List.mem_map_of_mem hs)).1
  constructor
  case isSrc => exact fun s hs => (hslots s hs).1
  case not_isDst => exact fun s hs => (hslots s hs).2.1
  case tmp_nodup =>
    rw [htmp]
    exact (pairwise_rangeFrom tmp count).imp Nat.ne_of_lt
  case spill_nodup => exact (List.nodup_append.mp htaken.nodup).1
  case tmp_ne_spill =>
    intro s hs s' hs'
    have := hslots s hs
    have := hlt s hs
    have := hge s' hs'
    omega
  case origin_ne_spill =>
    intro s hs s' hs'
    have := hlt s hs
    have := hge s' hs'
    omega
  case ordered =>
    have hpair := pairwise_rangeFrom tmp count
    rw [← htmp, List.pairwise_map] at hpair
    apply hpair.imp_of_mem
    intro s s' hs hs' hlt
    have := hslots s' hs'
    omega

end RegAllocator

namespace RangeInsn

variable {f : RangeInsn} {total : ℕ} {a a' : RegAllocator}

/-- The code of a range that has been moved down. -/
theorem exists_moved (hreach : a.Reachable total) (hlt : f.RegistersLt total) {level : ℕ}
    (hkind : f.kind.isRangeInst)
    (h : a.adjustDynRangeInstruction f.node f.kind.getRangeStartVregPos level = some a') :
    ∃ head tail slots, a'.newInsns = a.newInsns ++
        (head ++ Emitted.node f.op (.other :: (f.kind.leading ++ rangeFrom 0 f.count).map .vreg) :: tail) ∧
      head.map Emitted.toInstr = slots.flatMap Slot.head ∧
      tail.map Emitted.toInstr = slots.flatMap Slot.tail ∧ f.Moved total slots 0 := by
  have hoperands : f.node.operands = (.other :: f.kind.leading.map .vreg) ++ f.range.map .vreg := by
    simp [node, vregs, hkind]
  have hlength : (.other :: f.kind.leading.map OperandType.vreg).length =
      f.kind.getRangeStartVregPos := by simp
  simp only [RegAllocator.adjustDynRangeInstruction, hoperands, List.drop_left' hlength,
    List.take_left' hlength, Option.bind_eq_bind, Option.bind_eq_some_iff, Option.some.injEq,
    Prod.exists] at h
  obtain ⟨tmp, a₁, htmp, r, a₂, hloop, rfl⟩ := h
  obtain rfl := hreach.unflagged.findTmpVreg htmp
  obtain ⟨rfl, -⟩ := RegAllocator.findTmpVreg_spec htmp
  have htaken := RegAllocator.rangeLoop_taken hloop (hreach.inv.mark 0)
  obtain ⟨slots, hhead, htail, hspills, hr, htmps, horigin, hslots⟩ :=
    RegAllocator.rangeLoop_rangeFrom hloop
  rw [hspills] at htaken
  have horiginlt : ∀ s ∈ slots, s.origin < total := by
    intro s hs
    apply hlt.1
    apply List.mem_append_right
    rw [range, ← horigin]
    exact List.mem_map_of_mem hs
  refine ⟨r.head, r.tail, slots, ?_, hhead, htail, ?_⟩
  · refine (congrArg (· ++ _) htaken.later.newInsns_eq).trans ?_
    simp [RegAllocator.Adjustment.code, RegAllocator.mark, hr, node]
  · refine ⟨?_, by rw [htmps, List.take_of_length_le (by simp)],
      by rw [horigin, List.take_of_length_le (by simp), range], ?_⟩
    · exact RegAllocator.movable_of_taken htmps hslots htaken (Nat.zero_le _) horiginlt
    · intro s hs
      exact (htaken.ge _ (List.mem_map_of_mem hs)).1

theorem rangeLevel_node : RegAllocator.rangeLevel f.node f.kind.getRangeStartVregPos =
    some (2 ^ f.width) := by
  have hitem : f.format[f.kind.getRangeStartVregPos]? = some (.SrcVReg, f.width) := by
    simp [format, RangeKind.format]
  simp only [RegAllocator.rangeLevel, node, op, List.head?_cons, Option.bind_eq_bind,
    Option.bind_some, hitem]

theorem consecutive_rangeFrom (start n : ℕ) :
    RegAllocator.consecutive start ((rangeFrom (start + 1) n).map .vreg) = true := by
  induction n generalizing start with
  | zero => rfl
  | succ n ih => simp [rangeFrom, RegAllocator.consecutive, ih]

section

variable (hkind : f.kind.isRangeInst)
include hkind

theorem checkDynRange_node {n start r : ℕ} {rest : List ℕ} (hrange : f.range = start :: rangeFrom (start + 1) n)
    (hfirst : f.kind.leading ++ f.range = r :: rest) (level : ℕ) :
    RegAllocator.checkDynRangeInstruction f.node f.kind.getRangeStartVregPos level =
      some (decide (r < level)) := by
  have hoperands : f.node.operands =
      (.other :: f.kind.leading.map .vreg) ++ (start :: rangeFrom (start + 1) n).map .vreg := by
    simp [node, vregs, hkind, hrange]
  have hdrop : f.node.operands.drop 1 = (r :: rest).map .vreg := by
    rw [← hfirst, hoperands, hrange, List.map_append]
    rfl
  have hlength : (.other :: f.kind.leading.map OperandType.vreg).length =
      f.kind.getRangeStartVregPos := by simp
  rw [RegAllocator.checkDynRangeInstruction, hdrop, hoperands, List.drop_left' hlength]
  simp only [List.map_cons, consecutive_rangeFrom, if_true]
  by_cases hr : level ≤ r
  · simp [hr]
  · simp [hr, Nat.lt_of_not_le hr]

theorem exists_range (h : a.adjustInstruction f.node = some a') :
    ∃ n, f.count = n + 1 := by
  cases hcount : f.count with
  | succ n => exact ⟨n, rfl⟩
  | zero =>
    have hrange : f.node.rangeStart = some f.kind.getRangeStartVregPos := by simp [node, hkind]
    have hdrop : f.node.operands.drop f.kind.getRangeStartVregPos = [] := by
      simp [node, vregs, hkind, range, hcount, rangeFrom]
    simp only [RegAllocator.adjustInstruction, hrange, rangeLevel_node, Option.bind_eq_bind,
      Option.bind_some, RegAllocator.checkDynRangeInstruction, hdrop] at h
    simp at h

theorem adjustInstruction_range (h : a.adjustInstruction f.node = some a') : ∃ n r rest, f.count = n + 1 ∧
      f.kind.leading ++ f.range = r :: rest ∧
      if r < 2 ^ f.width then a'.newInsns = a.newInsns ++ [Emitted.node f.op f.node.operands]
      else a.adjustDynRangeInstruction f.node f.kind.getRangeStartVregPos (2 ^ f.width) =
        some a' := by
  obtain ⟨n, hn⟩ := exists_range hkind h
  have hrange : f.range = f.start :: rangeFrom (f.start + 1) n := by rw [range, hn, rangeFrom]
  obtain ⟨r, rest, hfirst⟩ : ∃ r rest, f.kind.leading ++ f.range = r :: rest := by
    cases hleading : f.kind.leading with
    | nil => exact ⟨_, _, hrange⟩
    | cons r rest => exact ⟨r, rest ++ f.range, rfl⟩
  refine ⟨n, r, rest, hn, hfirst, ?_⟩
  have hstart : f.node.rangeStart = some f.kind.getRangeStartVregPos := by simp [node, hkind]
  simp only [RegAllocator.adjustInstruction, hstart, rangeLevel_node, Option.bind_eq_bind,
    Option.bind_some, checkDynRange_node hkind hrange hfirst] at h
  split
  · next hr =>
    rw [if_pos (decide_eq_true hr)] at h
    cases h
    rfl
  · next hr =>
    rwa [if_neg (by simpa using hr)] at h

theorem node_operands :
    f.node.operands = .other :: (f.kind.leading ++ f.range).map .vreg := by
  simp [node, vregs, hkind]

end

theorem adjusted_iff_of_code {code : List Emitted} (h : a'.newInsns = a.newInsns ++ code) :
    f.Adjusted total a a' ↔ f.Fits code ∧ f.Simulates total code := by
  constructor
  · rintro ⟨code', h', hgood⟩
    obtain rfl := List.append_cancel_left (h.symm.trans h')
    exact hgood
  · intro hgood
    exact ⟨code, h, hgood⟩

theorem adjusted_node_iff {op : Opcode} (rest : List ℕ) (h : a'.newInsns = a.newInsns ++
      [.node op (.other :: (f.kind.leading ++ f.start :: rest).map .vreg)]) :
    f.Adjusted total a a' ↔ ∀ r ∈ f.kind.leading ++ [f.start], r < 2 ^ f.width := by
  rw [adjusted_iff_of_code h, and_iff_left (simulates_node op rest)]
  exact @fits_iff f [] [] op f.start rest nofun nofun

/-- Calls and `new`, the range of which starts with the first register. -/
theorem adjusted_of_leading_nil (hreach : a.Reachable total) (hlt : f.RegistersLt total)
    (hkind : f.kind.isRangeInst) (hleading : f.kind.leading = [])
    (h : a.adjustInstruction f.node = some a') : f.Adjusted total a a' := by
  obtain ⟨n, r, rest, hn, hfirst, h⟩ := adjustInstruction_range hkind h
  have hrange : f.range = f.start :: rangeFrom (f.start + 1) n := by rw [range, hn, rangeFrom]
  rw [hleading, hrange] at hfirst
  obtain ⟨rfl, -⟩ := List.cons.inj hfirst
  split at h
  · next hr =>
    rw [node_operands hkind, hrange] at h
    rw [adjusted_node_iff _ h, hleading]
    simpa using hr
  · next hr =>
    obtain ⟨head, tail, slots, hcode, hhead, htail, hmoved⟩ := exists_moved hreach hlt hkind h
    rw [hn, rangeFrom] at hcode
    rw [adjusted_iff_of_code hcode, fits_iff (node_notMem_of_head hhead) (node_notMem_of_tail htail)]
    refine ⟨?_, simulates_of_moved hmoved hhead htail hlt ?_ f.op _⟩
    · rw [hleading]
      simp [Nat.pos_of_ne_zero]
    · rw [hleading]
      simp

/-- The object of `ecma.createobjectwithexcludedkeys` decides, and stays where it is. -/
theorem adjusted_createobject_iff (hreach : a.Reachable total) (hlt : f.RegistersLt total) {obj : ℕ}
    (hkind : f.kind = .EcmaCreateobjectwithexcludedkeys obj)
    (h : a.adjustInstruction f.node = some a') :
    f.Adjusted total a a' ↔ obj < 2 ^ f.width ∧ f.start < 2 ^ f.width := by
  have hrangeInst : f.kind.isRangeInst := by rw [hkind]; rfl
  have hleading : f.kind.leading = [obj] := by rw [hkind]; rfl
  obtain ⟨n, r, rest, hn, hfirst, h⟩ := adjustInstruction_range hrangeInst h
  have hrange : f.range = f.start :: rangeFrom (f.start + 1) n := by rw [range, hn, rangeFrom]
  rw [hleading] at hfirst
  obtain ⟨rfl, -⟩ := List.cons.inj hfirst
  split at h
  · next hobj =>
    rw [node_operands hrangeInst, hrange] at h
    rw [adjusted_node_iff _ h, hleading]
    simp
  · next hobj =>
    obtain ⟨head, tail, slots, hcode, hhead, htail, -⟩ := exists_moved hreach hlt hrangeInst h
    rw [hn, rangeFrom] at hcode
    rw [adjusted_iff_of_code hcode, fits_iff (node_notMem_of_head hhead) (node_notMem_of_tail htail)]
    apply iff_of_false
    · rintro ⟨hfits, -⟩
      exact hobj (hfits obj (by simp [hleading]))
    · rintro ⟨hlt, -⟩
      exact hobj hlt

theorem minFormat_supercall (immWidth width n : ℕ) :
    RegAllocator.minFormat [.other, .vreg n] ([(.Imm, immWidth), (.SrcVReg, width)], 2)
        [[(.Imm, immWidth), (.SrcVReg, width)]] =
      ([(.Imm, immWidth), (.SrcVReg, width)], if 2 ^ width ≤ n then 1 else 0) := by
  by_cases hn : 2 ^ width ≤ n
  · simp [RegAllocator.minFormat, RegAllocator.getNumOfInvalidVregs, hn]
  · simp [RegAllocator.minFormat, RegAllocator.getNumOfInvalidVregs, hn]

theorem lt_of_findTmpVreg {width t : ℕ} (hwidth : width ∈ [4, 8, 16])
    (h : a.findTmpVreg (2 ^ width) = some (t, a')) : t < 2 ^ width := by
  obtain ⟨-, -, hb, ha⟩ := RegAllocator.findTmpVreg_spec h
  simp only [List.mem_cons, List.not_mem_nil, or_false] at hwidth
  unfold maxVRegB at hb
  unfold maxVRegA at ha
  rcases hwidth with rfl | rfl | rfl <;> omega

/-- A super call is adjusted like an instruction with one register. -/
theorem adjustInstruction_supercall (hreach : a.Reachable total)
    (hkind : f.kind = .EcmaSupercall) (h : a.adjustInstruction f.node = some a') :
    if f.start < 2 ^ f.width
    then a'.newInsns = a.newInsns ++ [Emitted.node f.op (.other :: [f.start].map .vreg)]
    else ∃ t s, t < 2 ^ f.width ∧ total ≤ s ∧ a'.newInsns = a.newInsns ++
      ([Emitted.movDyn s t, Emitted.movDyn t f.start] ++
        Emitted.node f.op (.other :: [t].map .vreg) :: [Emitted.movDyn t s]) := by
  have hoperands : f.node.operands = [.other, .vreg f.start] := by
    simp [node, vregs, hkind, RangeKind.leading, RangeKind.isRangeInst]
  have hstart : f.node.rangeStart = none := by simp [node, hkind, RangeKind.isRangeInst]
  have hformats : f.node.op.formats = [[(.Imm, f.immWidth), (.SrcVReg, f.width)]] := by
    simp [node, op, format, hkind, RangeKind.format, RangeKind.leading]
  simp only [RegAllocator.adjustInstruction, hstart, hformats, hoperands, List.head?_cons,
    Option.bind_eq_bind, Option.bind_some, List.length_cons, List.length_nil, Nat.reduceAdd,
    minFormat_supercall] at h
  split
  · next hfit =>
    simp only [Nat.not_le_of_lt hfit, if_false, Nat.lt_irrefl] at h
    cases h
    rfl
  · next hfit =>
    have hover := Nat.le_of_not_lt hfit
    simp only [hover, if_true, Nat.zero_lt_one, RegAllocator.doRealAdjustment, hoperands,
      RegAllocator.adjustLoop, Option.bind_eq_bind, Option.bind_eq_some_iff, Option.some.injEq,
      Prod.exists, Prod.mk.injEq] at h
    obtain ⟨a₁, hmark, r, a₂, ⟨r₁, a₃, ⟨s, a₄, hspill, t, a₅, htmp, r₂, a₆, ⟨rfl, rfl⟩, rfl, rfl⟩, rfl, rfl⟩,
      rfl⟩ := h
    obtain ⟨hinv, hlater, -⟩ := RegAllocator.markOperands_spec hmark hreach.inv
    obtain ⟨-, hlater', hge, -⟩ := RegAllocator.allocSpill_spec hspill hinv
    have ht := lt_of_findTmpVreg f.width_mem htmp
    obtain ⟨rfl, -⟩ := RegAllocator.findTmpVreg_spec htmp
    refine ⟨t, s, ht, hge, ?_⟩
    refine (congrArg (· ++ _) (hlater'.newInsns_eq.trans hlater.newInsns_eq)).trans ?_
    rfl

theorem movable_singleton {start t s : ℕ} (hstart : start < total) (ht : t < start)
    (hs : total ≤ s) : Movable [(⟨start, t, s, true, false⟩ : Slot ℕ)] := by
  constructor <;> simp <;> omega

/-- Behind the register that has been moved in, there is not what was behind the register that it
has been moved from. -/
theorem not_simulates_supercall {start t s : ℕ} {op : Opcode}
    (hstart : start = f.start) (ht : t < start) (hcount : 1 < f.count) :
    ¬ f.Simulates total ([Emitted.movDyn s t, Emitted.movDyn t start] ++
      Emitted.node op (.other :: (f.kind.leading ++ [t]).map .vreg) :: [Emitted.movDyn t s]) := by
  intro hsim
  obtain ⟨n, hn⟩ := Nat.exists_eq_add_of_lt hcount
  have hrel := hsim ℕ (fun _ _ range => if range = f.range then some 0 else none) ⟨0, id⟩
  have hhead : [Emitted.movDyn s t, Emitted.movDyn t start].map Emitted.toInstr =
      [(⟨start, t, s, true, false⟩ : Slot ℕ)].flatMap Slot.head := rfl
  rw [exec_head _ hhead, exec, execNode_eq] at hrel
  have hne : (rangeFrom t f.count).map
      (enterAll [(⟨start, t, s, true, false⟩ : Slot ℕ)] ⟨0, id⟩).regs ≠ f.range := by
    intro heq
    rw [range, hn] at heq
    simp only [Nat.add_comm 1 n, rangeFrom, List.map_cons] at heq
    have hsecond := (List.cons.inj (List.cons.inj heq).2).1
    have htne : t + 1 ≠ t := by omega
    simp only [enterAll, Slot.enter, if_true] at hsecond
    rw [RegFile.set_regs_of_ne _ htne] at hsecond
    by_cases hspill : t + 1 = s
    · rw [hspill, RegFile.set_regs_self] at hsecond
      simp only [id] at hsecond
      omega
    · rw [RegFile.set_regs_of_ne _ hspill] at hsecond
      simp only [id] at hsecond
      omega
  rw [if_neg hne] at hrel
  simp only [execUnadjusted, List.map_id, if_true, Option.map_some, Option.map_none,
    Option.bind_none] at hrel
  cases hrel

theorem take_singleton (r : ℕ) {n : ℕ} (h : n ≤ 1) : [r].take n = rangeFrom r n := by
  match n with
  | 0 => rfl
  | 1 => rfl

theorem adjusted_supercall_iff (hreach : a.Reachable total) (hlt : f.RegistersLt total)
    (hkind : f.kind = .EcmaSupercall) (h : a.adjustInstruction f.node = some a') :
    f.Adjusted total a a' ↔ f.start < 2 ^ f.width ∨ f.count ≤ 1 := by
  have hleading : f.kind.leading = [] := by rw [hkind]; rfl
  have hadjusted := adjustInstruction_supercall hreach hkind h
  split at hadjusted
  · next hfit =>
    rw [adjusted_node_iff [] (by rw [hleading]; exact hadjusted), hleading]
    simp [hfit]
  · next hfit =>
    obtain ⟨t, s, ht, hs, hcode⟩ := hadjusted
    have htstart : t < f.start := Nat.lt_of_lt_of_le ht (Nat.le_of_not_lt hfit)
    have hhead : [Emitted.movDyn s t, Emitted.movDyn t f.start].map Emitted.toInstr =
        [(⟨f.start, t, s, true, false⟩ : Slot ℕ)].flatMap Slot.head := rfl
    have htail : [Emitted.movDyn t s].map Emitted.toInstr =
        [(⟨f.start, t, s, true, false⟩ : Slot ℕ)].flatMap Slot.tail := rfl
    have hcode' : a'.newInsns = a.newInsns ++ ([Emitted.movDyn s t, Emitted.movDyn t f.start] ++
        Emitted.node f.op (.other :: (f.kind.leading ++ [t]).map .vreg) :: [Emitted.movDyn t s]) := by
      rw [hleading]
      exact hcode
    rw [adjusted_iff_of_code hcode', fits_iff (node_notMem_of_head hhead) (node_notMem_of_tail htail),
      and_iff_right (by simpa [hleading] using ht)]
    constructor
    · intro hsim
      refine .inr (Nat.le_of_not_lt ?_)
      intro hcount
      exact not_simulates_supercall rfl htstart hcount hsim
    · intro hor
      have hcount := hor.resolve_left hfit
      refine simulates_of_moved ⟨movable_singleton hlt.2 htstart hs, ?_, ?_, ?_⟩ hhead htail hlt ?_
        f.op []
      · exact take_singleton t hcount
      · exact take_singleton f.start hcount
      · intro slot hslot
        obtain rfl := List.mem_singleton.mp hslot
        exact hs
      · rw [hleading]
        simp

/-- After the adjustment the registers that are encoded fit, and the code does what the instruction
does. That is so for calls and `new`; where an object is in front of the range, if nothing was to be
adjusted, and for a super call as far as only one register has to be moved. -/
theorem adjusted_iff (f : RangeInsn) (total : ℕ) (a a' : RegAllocator) (hreach : a.Reachable total)
    (hlt : f.RegistersLt total) (h : a.adjustInstruction f.node = some a') :
    f.Adjusted total a a' ↔ f.handled := by
  unfold handled
  cases hkind : f.kind with
  | EcmaCallirangedyn | EcmaCallithisrangedyn | EcmaNewobjdynrange =>
    refine iff_of_true ?_ trivial
    exact adjusted_of_leading_nil hreach hlt (by rw [hkind]; rfl) (by rw [hkind]; rfl) h
  | EcmaCreateobjectwithexcludedkeys obj => exact adjusted_createobject_iff hreach hlt hkind h
  | EcmaSupercall => exact adjusted_supercall_iff hreach hlt hkind h

/-- A call of the first function behind 256 registers, with one argument. -/
def callirangedyn : RangeInsn where
  kind := .EcmaCallirangedyn
  start := 256
  count := 2
  immWidth := 16
  width := 8
  width_mem := by decide

theorem adjusted_iff_callirangedyn :
    ∃ a', (RegAllocator.initial 258).adjustInstruction callirangedyn.node = some a' ∧
      (callirangedyn.Adjusted 258 (RegAllocator.initial 258) a' ↔ callirangedyn.handled) := by
  have hsome : ((RegAllocator.initial 258).adjustInstruction callirangedyn.node).isSome := by
    decide +kernel
  obtain ⟨a', h⟩ := Option.isSome_iff_exists.mp hsome
  exact ⟨a', h, adjusted_iff _ 258 _ a' (RegAllocator.initial_reachable (by decide))
    (by unfold RegistersLt; decide) h⟩

/-- `super` with two arguments in the registers behind the first 256. -/
def supercall : RangeInsn where
  kind := .EcmaSupercall
  start := 256
  count := 2
  immWidth := 16
  width := 8
  width_mem := by decide

/-- A rest property, the object of which is behind the first 256 registers. -/
def createobjectwithexcludedkeys : RangeInsn where
  kind := .EcmaCreateobjectwithexcludedkeys 256
  start := 0
  count := 1
  immWidth := 16
  width := 8
  width_mem := by decide

theorem supercall_not_adjusted :
    (∃ a', (RegAllocator.initial 258).adjustInstruction supercall.node = some a' ∧
      ¬ supercall.Adjusted 258 (RegAllocator.initial 258) a') ∧
    ∃ a', (RegAllocator.initial 257).adjustInstruction createobjectwithexcludedkeys.node = some a' ∧
      ¬ createobjectwithexcludedkeys.Adjusted 257 (RegAllocator.initial 257) a' := by
  constructor
  · have hsome : ((RegAllocator.initial 258).adjustInstruction supercall.node).isSome := by
      decide +kernel
    obtain ⟨a', h⟩ := Option.isSome_iff_exists.mp hsome
    refine ⟨a', h, ?_⟩
    rw [adjusted_supercall_iff (RegAllocator.initial_reachable (by decide))
      (by unfold RegistersLt; decide) rfl h]
    decide
  · have hsome : ((RegAllocator.initial 257).adjustInstruction
        createobjectwithexcludedkeys.node).isSome := by
      decide +kernel
    obtain ⟨a', h⟩ := Option.isSome_iff_exists.mp hsome
    refine ⟨a', h, ?_⟩
    rw [adjusted_createobject_iff (RegAllocator.initial_reachable (by decide))
      (by unfold RegistersLt; decide) rfl h]
    decide

end RangeInsn

end ArkTs2abc.Ts2panda
