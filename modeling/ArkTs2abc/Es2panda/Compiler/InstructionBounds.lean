import ArkTs2abc.InstructionSet
import ArkTs2abc.Es2panda.Compiler.RegAllocator
import ArkTs2abc.Es2panda.Compiler.EmbeddedSource

/-!
# Bounds of instructions

In debug mode the emitter gives each instruction the offsets between which it expects it in the bytecode. It
counts one byte for an opcode and the whole bytes of each operand, no byte at all for an instruction that has
no operands, and leaves out the instructions in front of the first statement where there is none.

## Main definitions

* `matchFormat`, `getIRNodeWholeLength` — the length of an instruction.
* `FunctionEmitter.genFunctionInstructions` — the debug information of a function body.
* `FunctionEmitter.BoundsRight` — the bounds are those of the smallest entries.

## Main results

* `FunctionEmitter.boundsRight_iff` — the bodies where they are.
-/

namespace ArkTs2abc.Es2panda

open InstructionSet (OperandClass Encoding Instruction)

/-! ## The generated formats -/

/-- `get_operand_kind` of the template. -/
def getOperandKind (insn : InstructionSet.Insn) : OperandClass → OperandKind
  | .srcDstReg => .SRC_DST_VREG
  | .srcReg => .SRC_VREG
  | .dstReg => .DST_VREG
  | .imm => if insn.jump then .LABEL else .IMM
  | .id => if insn.stringId then .STRING_ID else .ID

/-- `make_format` of the template. -/
def makeFormat (insn : InstructionSet.Insn) (e : Encoding) : Format :=
  e.operands.map fun op => ⟨getOperandKind insn op.cls, op.width⟩

/-- The array of the formats, which is empty as soon as one of them is. -/
def getFormats (insn : InstructionSet.Insn) : List Format :=
  if insn.group.any (·.operands.isEmpty) then [] else insn.group.map (makeFormat insn)

/-- `Label` and the generated classes. -/
inductive Ins where
  | label
  | insn (i : Instruction)

namespace Ins

def getFormats : Ins → List Format
  | label => []
  | insn i => Es2panda.getFormats i.insn

def registers : Ins → List VReg
  | label => []
  | insn i => i.registers

/-- The bytes the instruction takes with the smallest entry that fits. -/
def size? : Ins → Option ℕ
  | label => none
  | insn i => some i.smallestSize

end Ins

/-- `MatchFormat`; nothing where no format fits. -/
def matchFormat (registers : List VReg) (formats : List Format) : Option Format :=
  formats.find? fun format => registers.all (isRegisterCorrect (formatLimit 0 format))

def getIRNodeWholeLength (ins : Ins) : Option ℕ :=
  if ins.getFormats = [] then some 0
  else (matchFormat ins.registers ins.getFormats).map fun format =>
    1 + (format.map (·.bitwidth / 8)).sum

/-! ## The debug information -/

structure SourcePosition where
  index : ℕ
  line : ℕ

structure SourceRange where
  start : SourcePosition
  last : SourcePosition

/-- `IRNode::Node`: the node of the instruction, by its range. -/
inductive InsNode where
  | firstNodeOfFunction
  | node (range : SourceRange)

/-- `ins_debug`, with what has not been set. -/
structure InsDebug where
  lineNumber : Option ℕ := none
  /-- `bound_left` and `bound_right`. -/
  bounds : Option (ℕ × ℕ) := none
  wholeLine : Option (List UInt8) := none

/-- What the emitter reads of the generator. -/
structure FunctionEmitter where
  firstStmt : Option SourceRange
  sourceCode : List UInt8

namespace FunctionEmitter

variable {fe : FunctionEmitter} {isDebug : Bool}

/-- The node whose lines an instruction gets. -/
def rangeOf (fe : FunctionEmitter) : InsNode → Option SourceRange
  | .firstNodeOfFunction => fe.firstStmt
  | .node range => some range

/-- `GenInstructionDebugInfo`, and `offset_` behind it. -/
def genInstructionDebugInfo (fe : FunctionEmitter) (isDebug : Bool) (offset : ℕ) (node : InsNode)
    (ins : Ins) : Option (InsDebug × ℕ) :=
  match fe.rangeOf node with
  | none => some ({}, offset)
  | some range =>
    if isDebug then do
      let insLen ← getIRNodeWholeLength ins
      some ({ lineNumber := some (range.start.line + 1),
              bounds := if insLen ≠ 0 then some (offset, offset + insLen) else none,
              wholeLine := wholeLine fe.sourceCode range.start.index range.last.index },
            offset + insLen)
    else some ({ lineNumber := some (range.start.line + 1) }, offset)

/-- The loop of `GenFunctionInstructions`. -/
def genInstructions (fe : FunctionEmitter) (isDebug : Bool) (offset : ℕ) :
    List (InsNode × Ins) → Option (List InsDebug)
  | [] => some []
  | (node, ins) :: rest => do
    let (info, offset) ← fe.genInstructionDebugInfo isDebug offset node ins
    let infos ← fe.genInstructions isDebug offset rest
    some (info :: infos)

def genFunctionInstructions (fe : FunctionEmitter) (isDebug : Bool) (body : List (InsNode × Ins)) :
    Option (List InsDebug) :=
  fe.genInstructions isDebug 0 body

/-- The bounds of a debug build are consecutive from 0 on and as long as the smallest entries that fit. -/
def BoundsRight (fe : FunctionEmitter) (body : List (InsNode × Ins)) : Prop :=
  ∃ infos, fe.genFunctionInstructions true body = some infos ∧
    Laid 0 (body.map fun p => p.2.size?) (infos.map InsDebug.bounds)

/-- The instruction is counted, and with all its bytes: its opcode is one byte, it has operands, and none
of them is half a byte in the smallest entry that fits. -/
structure Counts (fe : FunctionEmitter) (node : InsNode) (i : Instruction) : Prop where
  node : node = .firstNodeOfFunction → fe.firstStmt.isSome
  opcodeSize : i.insn.opcodeSize = 1
  classes : i.insn.classes ≠ []
  wholeBytes : ∀ e, i.IsSmallest e → e.WholeBytes

end FunctionEmitter

/-! ## The length of an instruction -/

@[simp] theorem isVReg_getOperandKind (insn : InstructionSet.Insn) (cls : OperandClass) :
    (getOperandKind insn cls).isVReg = cls.isReg := by
  cases cls
  case imm | id =>
    simp only [getOperandKind]
    split <;> rfl
  all_goals rfl

variable {e : Encoding} {insn : InstructionSet.Insn} {i : Instruction}

theorem map_width_eq_of_makeFormat_eq {f : Encoding} (h : makeFormat insn e = makeFormat insn f) :
    e.operands.map InstructionSet.Operand.width = f.operands.map InstructionSet.Operand.width := by
  have hmap := congrArg (List.map FormatItem.bitwidth) h
  rw [makeFormat, makeFormat, List.map_map, List.map_map] at hmap
  exact hmap

theorem formatLimit_makeFormat (he : e ∈ insn.group) {op : InstructionSet.Operand}
    (hop : op ∈ e.operands) (hreg : op.cls.isReg) :
    formatLimit 0 (makeFormat insn e) = 2 ^ op.width := by
  unfold formatLimit
  split
  next item hfind =>
    have hitem := List.find?_some hfind
    obtain ⟨op', hop', rfl⟩ := List.mem_map.mp (List.mem_of_find?_eq_some hfind)
    rw [isVReg_getOperandKind] at hitem
    show 2 ^ op'.width = 2 ^ op.width
    rw [insn.width_eq e he op' hop' op hop hitem hreg]
  next hfind =>
    have hnone := List.find?_eq_none.mp hfind _ (List.mem_map_of_mem hop)
    simp [hreg] at hnone

theorem all_isRegisterCorrect_iff (he : e ∈ i.insn.group) :
    i.registers.all (isRegisterCorrect (formatLimit 0 (makeFormat i.insn e))) ↔ e.Fits i.values := by
  by_cases hregs : i.registers = []
  · simp [hregs, InstructionSet.Instruction.fits_of_registers hregs e]
  · obtain ⟨op, hop, hreg⟩ := InstructionSet.Instruction.exists_reg_operand he hregs
    rw [formatLimit_makeFormat he hop hreg, InstructionSet.Instruction.fits_iff he hop hreg,
      List.all_eq_true]
    simp [isRegisterCorrect]

theorem getFormats_of_nil (h : insn.classes = []) :
    getFormats insn = [] := by
  obtain ⟨e, he⟩ := List.exists_mem_of_ne_nil _ insn.group_ne_nil
  have hlength := InstructionSet.Insn.length_operands he
  rw [h, List.length_nil, List.length_eq_zero_iff] at hlength
  exact if_pos (List.any_eq_true.mpr ⟨e, he, by simp [hlength]⟩)

theorem getFormats_of_ne_nil (h : insn.classes ≠ []) :
    getFormats insn = insn.group.map (makeFormat insn) := by
  refine if_neg ?_
  intro hany
  obtain ⟨e, he, hempty⟩ := List.any_eq_true.mp hany
  have hlength := InstructionSet.Insn.length_operands he
  rw [List.isEmpty_iff.mp hempty, List.length_nil] at hlength
  exact h (List.length_eq_zero_iff.mp hlength.symm)

/-- `MatchFormat` takes the smallest entry that fits. -/
theorem matchFormat_eq (h : i.IsSmallest e) :
    matchFormat i.registers (i.insn.group.map (makeFormat i.insn)) = some (makeFormat i.insn e) := by
  obtain ⟨pre, f, post, hgroup, hpre, hf⟩ := i.exists_first
  have hsmall := InstructionSet.Insn.isSmallest_of_first hgroup hpre hf
  obtain rfl := hsmall.unique h
  refine List.find?_eq_some_iff_append.mpr ⟨(all_isRegisterCorrect_iff h.mem).mpr hf,
    pre.map (makeFormat i.insn), post.map (makeFormat i.insn), by simp [hgroup], ?_⟩
  intro format hformat
  obtain ⟨e', he', rfl⟩ := List.mem_map.mp hformat
  have hmem : e' ∈ i.insn.group := by simp [hgroup, he']
  have hnot := mt (all_isRegisterCorrect_iff hmem).mp (hpre e' he')
  simpa using hnot

theorem getIRNodeWholeLength_of_nil (h : i.insn.classes = []) :
    getIRNodeWholeLength (.insn i) = some 0 :=
  if_pos (getFormats_of_nil h)

theorem getIRNodeWholeLength_of_isSmallest (hclasses : i.insn.classes ≠ []) (h : i.IsSmallest e) :
    getIRNodeWholeLength (.insn i) = some (1 + (e.operands.map (·.width / 8)).sum) := by
  have hne : (Ins.insn i).getFormats ≠ [] := by
    simp [Ins.getFormats, getFormats_of_ne_nil hclasses, i.insn.group_ne_nil]
  have hmatch := matchFormat_eq h
  rw [← getFormats_of_ne_nil hclasses] at hmatch
  rw [getIRNodeWholeLength, if_neg hne]
  show (matchFormat i.registers (getFormats i.insn)).map _ = _
  rw [hmatch, Option.map_some, makeFormat, List.map_map]
  rfl

/-! ## The bounds -/

namespace FunctionEmitter

variable {fe : FunctionEmitter}

theorem genInstructionDebugInfo_label (fe : FunctionEmitter) (offset : ℕ) (node : InsNode) :
    ∃ info, fe.genInstructionDebugInfo true offset node .label = some (info, offset) := by
  unfold genInstructionDebugInfo
  cases fe.rangeOf node with
  | none => exact ⟨_, rfl⟩
  | some range => exact ⟨_, rfl⟩

/-- The bounds of an instruction are right just if it counts, and then the next one starts behind it. -/
theorem genInstructionDebugInfo_insn (fe : FunctionEmitter) (offset : ℕ) (node : InsNode)
    (i : Instruction) :
    ∃ info next, fe.genInstructionDebugInfo true offset node (.insn i) = some (info, next) ∧
      (info.bounds = some (offset, offset + i.smallestSize) ↔ fe.Counts node i) ∧
      (fe.Counts node i → next = offset + i.smallestSize) := by
  obtain ⟨pre, e, post, hgroup, hpre, he⟩ := i.exists_first
  have hsmall := InstructionSet.Insn.isSmallest_of_first hgroup hpre he
  unfold genInstructionDebugInfo
  cases hrange : fe.rangeOf node with
  | none =>
    have hnot : ¬ fe.Counts node i := by
      intro h
      cases node with
      | firstNodeOfFunction =>
        have hsome := h.node rfl
        rw [rangeOf] at hrange
        simp [hrange] at hsome
      | node range => simp [rangeOf] at hrange
    exact ⟨_, _, rfl, by simp [hnot], fun h => absurd h hnot⟩
  | some range =>
    have hnode : node = .firstNodeOfFunction → fe.firstStmt.isSome := by
      rintro rfl
      rw [rangeOf] at hrange
      simp [hrange]
    by_cases hclasses : i.insn.classes = []
    · have hnot : ¬ fe.Counts node i := fun h => h.classes hclasses
      simp only [if_pos, getIRNodeWholeLength_of_nil hclasses]
      exact ⟨_, _, rfl, by simp [hnot], fun h => absurd h hnot⟩
    · have hcounts : fe.Counts node i ↔
          1 + (e.operands.map (·.width / 8)).sum = i.smallestSize := by
        rw [hsmall.size_eq, InstructionSet.Insn.size_eq_iff hsmall.mem]
        constructor
        · intro h
          exact ⟨h.opcodeSize, h.wholeBytes e hsmall⟩
        · rintro ⟨hopcode, hwhole⟩
          exact ⟨hnode, hopcode, hclasses, fun f hf => hsmall.unique hf ▸ hwhole⟩
      simp only [if_pos, getIRNodeWholeLength_of_isSmallest hclasses hsmall]
      refine ⟨_, _, rfl, ?_, ?_⟩
      · rw [hcounts]
        simp
      · intro h
        rw [hcounts.mp h]

theorem genInstructions_cons {offset next : ℕ} {node : InsNode} {ins : Ins} {info : InsDebug}
    (h : fe.genInstructionDebugInfo true offset node ins = some (info, next))
    (rest : List (InsNode × Ins)) :
    fe.genInstructions true offset ((node, ins) :: rest) =
      (fe.genInstructions true next rest).map (info :: ·) := by
  rw [genInstructions, h]
  show (fe.genInstructions true next rest).bind (fun infos => some (info :: infos)) = _
  cases fe.genInstructions true next rest <;> rfl

theorem laid_iff (fe : FunctionEmitter) (offset : ℕ) (body : List (InsNode × Ins)) :
    (∃ infos, fe.genInstructions true offset body = some infos ∧
      Laid offset (body.map fun p => p.2.size?) (infos.map InsDebug.bounds)) ↔
    ∀ node i, (node, .insn i) ∈ body → fe.Counts node i := by
  induction body generalizing offset with
  | nil => simp [genInstructions, Laid]
  | cons p rest ih =>
    obtain ⟨node, ins⟩ := p
    cases ins with
    | label =>
      obtain ⟨info, hinfo⟩ := fe.genInstructionDebugInfo_label offset node
      rw [genInstructions_cons hinfo]
      simpa [Ins.size?, Laid] using ih offset
    | insn i =>
      obtain ⟨info, next, hinfo, hright, hnext⟩ := fe.genInstructionDebugInfo_insn offset node i
      rw [genInstructions_cons hinfo]
      simp only [Option.map_eq_some_iff, List.map_cons, Ins.size?, List.mem_cons,
        Prod.mk.injEq, Ins.insn.injEq]
      constructor
      · rintro ⟨_, ⟨infos, hinfos, rfl⟩, hhead, hrest⟩ node' i' (⟨rfl, rfl⟩ | hmem)
        · exact hright.mp hhead
        · rw [hnext (hright.mp hhead)] at hinfos
          exact (ih _).mp ⟨infos, hinfos, hrest⟩ node' i' hmem
      · intro h
        have hcounts := h node i (.inl ⟨rfl, rfl⟩)
        obtain ⟨infos, hinfos, hrest⟩ := (ih (offset + i.smallestSize)).mpr
          fun node' i' hmem => h node' i' (.inr hmem)
        exact ⟨_, ⟨infos, hnext hcounts ▸ hinfos, rfl⟩, hright.mpr hcounts, hrest⟩

theorem boundsRight_iff (fe : FunctionEmitter) (body : List (InsNode × Ins)) :
    fe.BoundsRight body ↔ ∀ node i, (node, .insn i) ∈ body → fe.Counts node i :=
  fe.laid_iff 0 body

end FunctionEmitter

end ArkTs2abc.Es2panda
