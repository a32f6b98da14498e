import ArkTs2abc.Es2panda.Compiler.InstructionBounds
import ArkTs2abc.Ts2panda.RegAllocator
import Mathlib.Data.Rat.Defs
import Mathlib.Algebra.Order.Ring.Rat
import Mathlib.Tactic.Linarith
import Mathlib.Tactic.Positivity
import Mathlib.Tactic.Ring

/-!
# Position information of instructions

`setPosDebugInfo` gives each instruction the offsets between which it expects it in the bytecode. It writes
them to the `DebugPosInfo` of the instruction, and the moves around an instruction whose registers had to be
spilled have the same one. `matchFormat` looks for the format of the greatest index that holds some register,
and so finds the widest.

## Main definitions

* `matchFormat`, `getIRNodeWholeLength` — the length of an instruction.
* `setPosDebugInfo` — the bounds of a function body.
* `BoundsRight` — the bounds are those of the smallest entries.
* `SameFormat` — both compilers take the same format.

## Main results

* `instruction_bounds_iff` — the bodies where the bounds are right, and the instructions for which the formats
  are the same.
-/

namespace ArkTs2abc.Ts2panda.DebugInfo

open InstructionSet (OperandClass Encoding Insn Instruction Value)

/-! ## The generated formats -/

/-- `get_operand_kind` of the template. -/
def getOperandKind (insn : Insn) : OperandClass → OperandKind
  | .srcDstReg => .SrcDstVReg
  | .srcReg => .SrcVReg
  | .dstReg => .DstVReg
  | .imm => if insn.jump then .Label else .Imm
  | .id => if insn.stringId then .StringId else .Id

/-- `make_format` of the template. -/
def makeFormat (insn : Insn) (e : Encoding) : Format :=
  e.operands.map fun op => (getOperandKind insn op.cls, op.width)

/-- `getInsnFormats`. -/
def getInsnFormats (insn : Insn) : List Format := insn.group.map (makeFormat insn)

def operandOf : Value → OperandType
  | .vreg reg => .vreg reg.toNat
  | .other => .other

/-- The kinds of nodes. A range instruction has the other registers of its range as `rest`. -/
inductive NodeClass where
  | label
  | debugInsStartPlaceHolder
  | debugInsEndPlaceHolder
  | insn (i : Instruction) (rest : List OperandType)

namespace NodeClass

def getFormats : NodeClass → List Format
  | insn i _ => getInsnFormats i.insn
  | label | debugInsStartPlaceHolder | debugInsEndPlaceHolder => []

def operands : NodeClass → List OperandType
  | insn i rest => i.values.map operandOf ++ rest
  | label | debugInsStartPlaceHolder | debugInsEndPlaceHolder => []

/-- `irnode instanceof CalliDynRange || irnode instanceof CallRange`. -/
def isCallRange : NodeClass → Bool
  | insn i _ => i.insn.callRange
  | label | debugInsStartPlaceHolder | debugInsEndPlaceHolder => false

def isLabel : NodeClass → Bool
  | label => true
  | insn _ _ | debugInsStartPlaceHolder | debugInsEndPlaceHolder => false

/-- The bytes the instruction takes with the smallest entry that fits. -/
def size? : NodeClass → Option ℚ
  | insn i _ => some i.smallestSize
  | label | debugInsStartPlaceHolder | debugInsEndPlaceHolder => none

@[simp] theorem size?_label : label.size? = none := rfl
@[simp] theorem size?_debugInsStartPlaceHolder : debugInsStartPlaceHolder.size? = none := rfl
@[simp] theorem size?_debugInsEndPlaceHolder : debugInsEndPlaceHolder.size? = none := rfl
@[simp] theorem size?_insn (i : Instruction) (rest : List OperandType) :
    (insn i rest).size? = some (i.smallestSize : ℚ) := rfl

end NodeClass

/-! ## The length of an instruction -/

/-- `format[i][1]`. -/
def bitwidth (format : Format) (i : ℕ) : ℕ := (format[i]?.map Prod.snd).getD 0

/-- The inner loop of `matchFormat`, for the register that is operand `i`. -/
def matchRegister (formats : List Format) (num i formatIndex : ℕ) : ℕ :=
  (List.range formats.length).foldl (fun formatIndex j =>
    if num < 2 ^ bitwidth (formats.getD j []) i then
      if formatIndex < j then j else formatIndex
    else formatIndex) formatIndex

/-- The body of the outer loop. -/
def matchOperand (formats : List Format) (operands : List OperandType) (formatIndex i : ℕ) : ℕ :=
  match operands[i]? with
  | some (.vreg num) => matchRegister formats num i formatIndex
  | some .other | none => formatIndex

/-- `DebugInfo.matchFormat`. -/
def matchFormat (formats : List Format) (operands : List OperandType) : ℕ :=
  (List.range (formats.headD []).length).foldl (matchOperand formats operands) 0

/-- `DebugInfo.getIRNodeWholeLength`. The division is that of numbers. -/
def getIRNodeWholeLength (irnode : NodeClass) : ℚ :=
  match irnode with
  | .label | .debugInsStartPlaceHolder | .debugInsEndPlaceHolder => 0
  | .insn _ _ =>
    if irnode.getFormats = [] then 0
    else
      let format := irnode.getFormats.getD (matchFormat irnode.getFormats irnode.operands) []
      if irnode.isCallRange ∧ format ≠ [] then
        1 + (bitwidth format 0 : ℚ) / 8 + (bitwidth format 1 : ℚ) / 8
      else 1 + (format.map fun item => (item.2 : ℚ) / 8).sum

/-! ## The bounds -/

/-- What `setPosDebugInfo` reads and writes of a `DebugPosInfo`. -/
structure DebugPosInfo where
  boundLeft : Option ℚ := none
  boundRight : Option ℚ := none
  sourceLineNum : ℤ := -1
  sourceColumnNum : ℤ := -1
  /-- The node state is `NodeKind.FirstNodeOfFunction`. -/
  firstNodeOfFunction : Bool := false

/-- Both bounds, where they are set. -/
def DebugPosInfo.bounds (info : DebugPosInfo) : Option (ℚ × ℚ) :=
  match info.boundLeft, info.boundRight with
  | some l, some r => some (l, r)
  | some _, none | none, _ => none

/-- `setInvalidPosInfoForUninitializeIns`. -/
def setInvalidPosInfoForUninitializeIns (info : DebugPosInfo) : DebugPosInfo :=
  { info with sourceLineNum := -1, sourceColumnNum := -1 }

/-- A node with the `DebugPosInfo` object it refers to. -/
structure Node where
  cls : NodeClass
  debugPosInfo : ℕ

/-- The objects, by their references. -/
abbrev Objects := ℕ → DebugPosInfo

/-- What the loop does to the object of a node. -/
def setPos (isDebug : Bool) (offset insLength : ℚ) (info : DebugPosInfo) : DebugPosInfo :=
  let info := if info.firstNodeOfFunction then setInvalidPosInfoForUninitializeIns info else info
  if isDebug then { info with boundLeft := some offset, boundRight := some (offset + insLength) }
  else info

/-- A label takes the object of the node behind it. -/
def shareLabel (n : Node) (next : Option Node) : Node :=
  match next with
  | some m => if n.cls.isLabel then { n with debugPosInfo := m.debugPosInfo } else n
  | none => n

/-- The loop of `setPosDebugInfo`: the objects and the nodes behind it. -/
def setPosLoop (isDebug : Bool) (objects : Objects) (offset : ℚ) : List Node → Objects × List Node
  | [] => (objects, [])
  | n :: ns =>
    let insLength := getIRNodeWholeLength n.cls
    let objects := Function.update objects n.debugPosInfo
      (setPos isDebug offset insLength (objects n.debugPosInfo))
    let behind := setPosLoop isDebug objects (offset + insLength) ns
    (behind.1, shareLabel n ns.head? :: behind.2)

/-- `DebugInfo.setPosDebugInfo`. -/
def setPosDebugInfo (isDebug : Bool) (objects : Objects) (insns : List Node) : Objects × List Node :=
  setPosLoop isDebug objects 0 insns

/-- The bounds of the nodes. -/
def boundsOf (p : Objects × List Node) : List (Option (ℚ × ℚ)) :=
  p.2.map fun n => (p.1 n.debugPosInfo).bounds

/-- The bounds of a debug build are consecutive from 0 on and as long as the smallest entries that fit. -/
def BoundsRight (objects : Objects) (insns : List Node) : Prop :=
  Laid 0 (insns.map fun n => n.cls.size?) (boundsOf (setPosDebugInfo true objects insns))

/-- The instruction is counted with all its bytes. Without registers the first entry is taken and its opcode
has to be one byte. With registers the last one is taken, and what it is longer by has to be what the opcode
is longer by than a byte. -/
structure Counts (i : Instruction) : Prop where
  plain : i.registers = [] → i.insn.opcodeSize = 1
  widest : i.registers ≠ [] → ∀ e, i.IsSmallest e → i.insn.widest.size + 1 = e.size + i.insn.opcodeSize

/-- The object of an instruction is not that of a node behind it. -/
def Unshared (insns : List Node) : Prop :=
  insns.Pairwise fun n m => n.cls.size?.isSome → m.debugPosInfo ≠ n.debugPosInfo

/-- The entry `matchFormat` finds is that of the format the other compiler takes. -/
def SameFormat (i : Instruction) (rest : List OperandType) : Prop :=
  ∃ e, i.insn.group[matchFormat (getInsnFormats i.insn) (NodeClass.insn i rest).operands]? = some e ∧
    Es2panda.matchFormat i.registers (Es2panda.getFormats i.insn) = some (Es2panda.makeFormat i.insn e)

/-! ## The format that is found -/

theorem foldl_greatest (p : ℕ → Prop) [DecidablePred p] (js : List ℕ) (start : ℕ) :
    let found := js.foldl (fun k j => if p j then (if k < j then j else k) else k) start
    start ≤ found ∧ (found = start ∨ found ∈ js) ∧ ∀ j ∈ js, p j → j ≤ found := by
  induction js generalizing start with
  | nil => simp
  | cons j js ih =>
    simp only [List.foldl_cons]
    grind

theorem matchRegister_spec (formats : List Format) (num i formatIndex : ℕ) :
    formatIndex ≤ matchRegister formats num i formatIndex ∧
    (matchRegister formats num i formatIndex = formatIndex ∨
      matchRegister formats num i formatIndex < formats.length) ∧
    ∀ j < formats.length, num < 2 ^ bitwidth (formats.getD j []) i →
      j ≤ matchRegister formats num i formatIndex := by
  have h := foldl_greatest (fun j => num < 2 ^ bitwidth (formats.getD j []) i)
    (List.range formats.length) formatIndex
  simp only [List.mem_range] at h
  exact h

theorem matchOperand_spec (formats : List Format) (operands : List OperandType) (formatIndex i : ℕ) :
    formatIndex ≤ matchOperand formats operands formatIndex i ∧
    (matchOperand formats operands formatIndex i = formatIndex ∨
      matchOperand formats operands formatIndex i < formats.length) ∧
    ∀ num, operands[i]? = some (.vreg num) → ∀ j < formats.length,
      num < 2 ^ bitwidth (formats.getD j []) i → j ≤ matchOperand formats operands formatIndex i := by
  unfold matchOperand
  have h := fun num => matchRegister_spec formats num i formatIndex
  split <;> grind

theorem foldl_matchOperand (formats : List Format) (operands : List OperandType) (is : List ℕ)
    (start : ℕ) :
    let found := is.foldl (matchOperand formats operands) start
    start ≤ found ∧ (found = start ∨ found < formats.length) ∧
      ∀ i ∈ is, ∀ num, operands[i]? = some (.vreg num) → ∀ j < formats.length,
        num < 2 ^ bitwidth (formats.getD j []) i → j ≤ found := by
  induction is generalizing start with
  | nil => simp
  | cons i is ih =>
    obtain ⟨hle, hmem, hmax⟩ := matchOperand_spec formats operands start i
    obtain ⟨hle', hmem', hmax'⟩ := ih (matchOperand formats operands start i)
    simp only [List.foldl_cons, List.mem_cons, forall_eq_or_imp]
    refine ⟨hle.trans hle', ?_, ?_, hmax'⟩
    · grind
    · intro num hnum j hj hfits
      exact (hmax num hnum j hj hfits).trans hle'

theorem matchFormat_of_no_register {formats : List Format} {operands : List OperandType}
    (h : ∀ i < (formats.headD []).length, ∀ num, operands[i]? ≠ some (.vreg num)) :
    matchFormat formats operands = 0 := by
  have hfold : ∀ is : List ℕ, (∀ i ∈ is, ∀ num, operands[i]? ≠ some (.vreg num)) →
      is.foldl (matchOperand formats operands) 0 = 0 := by
    intro is his
    induction is with
    | nil => rfl
    | cons i is ih =>
      have hstep : matchOperand formats operands 0 i = 0 := by
        have hnone := his i List.mem_cons_self
        unfold matchOperand
        split <;> grind
      rw [List.foldl_cons, hstep]
      exact ih fun i' hi' => his i' (List.mem_cons_of_mem i hi')
  exact hfold _ fun i hi => h i (List.mem_range.mp hi)

theorem matchFormat_eq_last {formats : List Format} {operands : List OperandType} {i num : ℕ}
    (hi : i < (formats.headD []).length) (hoperand : operands[i]? = some (.vreg num))
    (hpos : 0 < formats.length)
    (hfits : num < 2 ^ bitwidth (formats.getD (formats.length - 1) []) i) :
    matchFormat formats operands = formats.length - 1 := by
  obtain ⟨-, hmem, hmax⟩ :=
    foldl_matchOperand formats operands (List.range (formats.headD []).length) 0
  have hle := hmax i (List.mem_range.mpr hi) num hoperand (formats.length - 1) (by omega) hfits
  unfold matchFormat
  omega

section Instruction

variable {i : Instruction} {e : Encoding} {rest : List OperandType}

theorem bitwidth_makeFormat (insn : Insn) (e : Encoding) (k : ℕ) :
    bitwidth (makeFormat insn e) k = (e.operands[k]?.map InstructionSet.Operand.width).getD 0 := by
  rw [bitwidth, makeFormat, List.getElem?_map, Option.map_map]
  rfl

theorem length_headD_getInsnFormats (insn : Insn) :
    ((getInsnFormats insn).headD []).length = insn.classes.length := by
  obtain ⟨e, post, hgroup⟩ := List.exists_cons_of_ne_nil insn.group_ne_nil
  rw [← InstructionSet.Insn.length_operands (e := e) (by simp [hgroup])]
  simp [getInsnFormats, hgroup, makeFormat]

theorem getElem?_operands {k : ℕ} (hk : k < i.insn.classes.length) :
    (NodeClass.insn i rest).operands[k]? = i.values[k]?.map operandOf := by
  rw [NodeClass.operands, List.getElem?_append_left (by simpa [← i.length_classes] using hk),
    List.getElem?_map]

theorem matchFormat_of_registers_nil (h : i.registers = []) :
    matchFormat (getInsnFormats i.insn) (NodeClass.insn i rest).operands = 0 := by
  refine matchFormat_of_no_register ?_
  intro k hk num hnum
  rw [length_headD_getInsnFormats] at hk
  rw [getElem?_operands hk, Option.map_eq_some_iff] at hnum
  obtain ⟨v, hv, hoperand⟩ := hnum
  cases v with
  | other => simp [operandOf] at hoperand
  | vreg reg =>
    have hmem := InstructionSet.Instruction.mem_registers.mpr (List.mem_of_getElem? hv)
    simp [h] at hmem

theorem matchFormat_of_registers_ne_nil (h : i.registers ≠ []) :
    matchFormat (getInsnFormats i.insn) (NodeClass.insn i rest).operands =
      i.insn.group.length - 1 := by
  obtain ⟨reg, hreg⟩ := List.exists_mem_of_ne_nil _ h
  obtain ⟨k, hk⟩ := List.getElem?_of_mem (InstructionSet.Instruction.mem_registers.mp hreg)
  obtain ⟨e, he, hfits⟩ := i.allocated
  have hlt : k < i.insn.classes.length := by
    rw [i.length_classes]
    exact (List.getElem?_eq_some_iff.mp hk).1
  have hpos : 0 < i.insn.group.length := List.length_pos_of_mem he
  -- the register fits its operand of the last entry
  have hwide : reg.toNat < 2 ^ bitwidth (makeFormat i.insn i.insn.widest) k := by
    have hfits := InstructionSet.Insn.fits_widest he hfits
    have hlength := InstructionSet.Insn.length_operands i.insn.widest_mem
    obtain ⟨op, hop⟩ : ∃ op, i.insn.widest.operands[k]? = some op :=
      ⟨_, List.getElem?_eq_getElem (by omega)⟩
    have hzip : (i.insn.widest.operands.zip i.values)[k]? = some (op, .vreg reg) :=
      List.getElem?_zip_eq_some.mpr ⟨hop, hk⟩
    rw [bitwidth_makeFormat, hop]
    exact hfits _ (List.mem_of_getElem? hzip) reg rfl
  have hlast : (getInsnFormats i.insn).getD ((getInsnFormats i.insn).length - 1) [] =
      makeFormat i.insn i.insn.widest := by
    rw [List.getD_eq_getElem?_getD, ← List.getLast?_eq_getElem?, getInsnFormats, List.getLast?_map,
      List.getLast?_eq_some_getLast i.insn.group_ne_nil]
    rfl
  have hoperand : (NodeClass.insn i rest).operands[k]? = some (.vreg reg.toNat) := by
    rw [getElem?_operands hlt, hk]
    rfl
  have hfound := matchFormat_eq_last (by rwa [length_headD_getInsnFormats]) hoperand
    (by simpa [getInsnFormats] using hpos) (by rwa [hlast])
  rw [hfound, getInsnFormats, List.length_map]

/-- The entry of the format that is found: the smallest that fits without registers, and the widest with
them. -/
theorem exists_found (i : Instruction) (rest : List OperandType) :
    ∃ e, i.insn.group[matchFormat (getInsnFormats i.insn) (NodeClass.insn i rest).operands]? = some e ∧
      (i.registers = [] → i.IsSmallest e) ∧ (i.registers ≠ [] → e = i.insn.widest) := by
  by_cases h : i.registers = []
  · obtain ⟨e, post, hgroup⟩ := List.exists_cons_of_ne_nil i.insn.group_ne_nil
    have hsmall : i.IsSmallest e :=
      InstructionSet.Insn.isSmallest_of_first (show i.insn.group = [] ++ e :: post from hgroup)
        (by simp) (InstructionSet.Instruction.fits_of_registers h e)
    rw [matchFormat_of_registers_nil h]
    exact ⟨e, by simp [hgroup], fun _ => hsmall, fun hne => absurd h hne⟩
  · rw [matchFormat_of_registers_ne_nil h, ← List.getLast?_eq_getElem?,
      List.getLast?_eq_some_getLast i.insn.group_ne_nil]
    exact ⟨_, rfl, fun hnil => absurd hnil h, fun _ => rfl⟩

theorem sum_map_div (ops : List InstructionSet.Operand) :
    (ops.map fun op => (op.width : ℚ) / 8).sum = ((ops.map InstructionSet.Operand.width).sum : ℕ) / 8 := by
  induction ops with
  | nil => simp
  | cons op ops ih =>
    simp only [List.map_cons, List.sum_cons, ih]
    push_cast
    ring

/-- The length counts the operands of the entry that is found, and a byte for the opcode. -/
theorem getIRNodeWholeLength_add
    (h : i.insn.group[matchFormat (getInsnFormats i.insn) (NodeClass.insn i rest).operands]? = some e) :
    getIRNodeWholeLength (.insn i rest) + i.insn.opcodeSize = e.size + 1 := by
  have he := List.mem_of_getElem? h
  have hformat : (getInsnFormats i.insn).getD
      (matchFormat (getInsnFormats i.insn) (NodeClass.insn i rest).operands) [] = makeFormat i.insn e := by
    rw [List.getD_eq_getElem?_getD]
    nth_rewrite 1 [getInsnFormats]
    rw [List.getElem?_map, h]
    rfl
  have hne : (NodeClass.insn i rest).getFormats ≠ [] := by
    simp [NodeClass.getFormats, getInsnFormats, i.insn.group_ne_nil]
  have hsize : (8 * e.size : ℚ) = 8 * i.insn.opcodeSize + e.bits := by
    exact_mod_cast i.insn.size_eq e he
  have hsum : ((makeFormat i.insn e).map fun item => (item.2 : ℚ) / 8).sum = (e.bits : ℚ) / 8 := by
    rw [makeFormat, List.map_map]
    exact sum_map_div e.operands
  have hlength : getIRNodeWholeLength (.insn i rest) = 1 + (e.bits : ℚ) / 8 := by
    rw [getIRNodeWholeLength, if_neg hne]
    simp only [NodeClass.getFormats, hformat]
    split
    next hrange =>
      have hops : e.operands.length = 2 := by
        rw [InstructionSet.Insn.length_operands he, i.insn.two_operands hrange.1]
      obtain ⟨op, op', hpair⟩ := List.length_eq_two.mp hops
      have htwo : (bitwidth (makeFormat i.insn e) 0 : ℚ) / 8 +
          (bitwidth (makeFormat i.insn e) 1 : ℚ) / 8 = (e.bits : ℚ) / 8 := by
        rw [← hsum]
        simp [makeFormat, hpair, bitwidth]
      rw [add_assoc, htwo]
    next => exact congrArg (1 + ·) hsum
  rw [hlength]
  linarith

/-- The length is right just if the instruction counts. -/
theorem getIRNodeWholeLength_eq_iff (i : Instruction) (rest : List OperandType) :
    getIRNodeWholeLength (.insn i rest) = i.smallestSize ↔ Counts i := by
  obtain ⟨e, hfound, hnil, hne⟩ := exists_found i rest
  have hadd := getIRNodeWholeLength_add hfound
  obtain ⟨pre, f, post, hgroup, hpre, hf⟩ := i.exists_first
  have hsmall := InstructionSet.Insn.isSmallest_of_first hgroup hpre hf
  rw [hsmall.size_eq]
  have hiff : getIRNodeWholeLength (.insn i rest) = f.size ↔ e.size + 1 = f.size + i.insn.opcodeSize := by
    rw [← @Nat.cast_inj ℚ]
    push_cast
    constructor <;> intro h <;> linarith
  rw [hiff]
  constructor
  · intro h
    refine ⟨fun hregs => ?_, fun hregs f' hf' => ?_⟩
    · have hsize := congrArg Encoding.size ((hnil hregs).unique hsmall)
      omega
    · rw [← hne hregs, hf'.unique hsmall]
      exact h
  · intro h
    by_cases hregs : i.registers = []
    · have hsize := congrArg Encoding.size ((hnil hregs).unique hsmall)
      have hopcode := h.plain hregs
      omega
    · rw [hne hregs]
      exact h.widest hregs f hsmall

theorem counts_iff_onlyLastFits (h : i.insn.opcodeSize = 1) :
    Counts i ↔ (i.registers ≠ [] → i.OnlyLastFits) := by
  constructor
  · intro hcounts hregs
    obtain ⟨pre, e, post, hgroup, hpre, he⟩ := i.exists_first
    have hsmall := InstructionSet.Insn.isSmallest_of_first hgroup hpre he
    have hsize := hcounts.widest hregs e hsmall
    have hlast := InstructionSet.Insn.eq_of_size_eq hsmall.mem i.insn.widest_mem (by omega)
    rw [i.onlyLastFits_iff, ← hlast]
    exact hsmall
  · intro hlast
    refine ⟨fun _ => h, fun hregs e he => ?_⟩
    rw [he.unique (i.onlyLastFits_iff.mp (hlast hregs)), h]

theorem getIRNodeWholeLength_pos (i : Instruction) (rest : List OperandType) :
    0 < getIRNodeWholeLength (.insn i rest) := by
  obtain ⟨e, hfound, -, -⟩ := exists_found i rest
  have hadd := getIRNodeWholeLength_add hfound
  have hsize := i.insn.size_eq e (List.mem_of_getElem? hfound)
  have hle : (i.insn.opcodeSize : ℚ) ≤ e.size := by
    exact_mod_cast (show i.insn.opcodeSize ≤ e.size by omega)
  linarith

end Instruction

/-! ## The bounds -/

theorem getIRNodeWholeLength_nonneg (irnode : NodeClass) : 0 ≤ getIRNodeWholeLength irnode := by
  cases irnode with
  | label | debugInsStartPlaceHolder | debugInsEndPlaceHolder => exact le_rfl
  | insn i rest => exact (getIRNodeWholeLength_pos i rest).le

@[simp] theorem bounds_setPos (offset insLength : ℚ) (info : DebugPosInfo) :
    (setPos true offset insLength info).bounds = some (offset, offset + insLength) := rfl

theorem setPosLoop_of_unused {objects : Objects} {offset : ℚ} {ns : List Node} {r : ℕ}
    (h : ∀ n ∈ ns, n.debugPosInfo ≠ r) : (setPosLoop true objects offset ns).1 r = objects r := by
  induction ns generalizing objects offset with
  | nil => rfl
  | cons n ns ih =>
    rw [List.forall_mem_cons] at h
    show (setPosLoop true _ _ ns).1 r = _
    rw [ih h.2, Function.update_of_ne h.1.symm]

theorem exists_bounds_setPosLoop {objects : Objects} {offset : ℚ} {ns : List Node} {r : ℕ}
    (h : ∃ n ∈ ns, n.debugPosInfo = r) :
    ∃ left right, ((setPosLoop true objects offset ns).1 r).bounds = some (left, right) ∧
      offset ≤ left := by
  induction ns generalizing objects offset with
  | nil => simp at h
  | cons n ns ih =>
    show ∃ left right, ((setPosLoop true _ _ ns).1 r).bounds = some (left, right) ∧ offset ≤ left
    by_cases hlater : ∃ m ∈ ns, m.debugPosInfo = r
    · obtain ⟨left, right, hbounds, hle⟩ := ih hlater
      have hlength := getIRNodeWholeLength_nonneg n.cls
      exact ⟨left, right, hbounds, by linarith⟩
    · obtain rfl : n.debugPosInfo = r := by
        obtain ⟨m, hm, hr⟩ := h
        rcases List.mem_cons.mp hm with rfl | hm
        · exact hr
        · exact absurd ⟨m, hm, hr⟩ hlater
      rw [setPosLoop_of_unused fun m hm hr => hlater ⟨m, hm, hr⟩, Function.update_self]
      exact ⟨offset, _, rfl, le_rfl⟩

theorem bounds_head_iff {objects : Objects} {offset : ℚ} {n : Node} {ns : List Node} {i : Instruction}
    {rest : List OperandType} (hcls : n.cls = .insn i rest) :
    ((setPosLoop true objects offset (n :: ns)).1 n.debugPosInfo).bounds =
        some (offset, offset + (i.smallestSize : ℚ)) ↔
      Counts i ∧ ∀ m ∈ ns, m.debugPosInfo ≠ n.debugPosInfo := by
  have hloop : (setPosLoop true objects offset (n :: ns)).1 =
      (setPosLoop true (Function.update objects n.debugPosInfo (setPos true offset
        (getIRNodeWholeLength n.cls) (objects n.debugPosInfo))) (offset + getIRNodeWholeLength n.cls)
        ns).1 := rfl
  rw [hloop]
  by_cases hunused : ∀ m ∈ ns, m.debugPosInfo ≠ n.debugPosInfo
  · rw [setPosLoop_of_unused hunused, Function.update_self, bounds_setPos, hcls,
      ← getIRNodeWholeLength_eq_iff i rest, and_iff_left hunused]
    simp
  · -- the object has the bounds of a node behind this one
    have hlater : ∃ m ∈ ns, m.debugPosInfo = n.debugPosInfo := by
      simpa using hunused
    refine iff_of_false ?_ fun h => hunused h.2
    intro h
    obtain ⟨left, right, hbounds, hle⟩ := exists_bounds_setPosLoop hlater
    rw [hbounds, Option.some.injEq, Prod.mk.injEq] at h
    have hpos := getIRNodeWholeLength_pos i rest
    rw [hcls] at hle
    linarith [h.1]

theorem laid_iff (objects : Objects) (offset : ℚ) (ns : List Node) :
    Laid offset (ns.map fun n => n.cls.size?) (boundsOf (setPosLoop true objects offset ns)) ↔
      (∀ n ∈ ns, ∀ i rest, n.cls = .insn i rest → Counts i) ∧ Unshared ns := by
  induction ns generalizing objects offset with
  | nil => simp [Laid, boundsOf, setPosLoop, Unshared]
  | cons n ns ih =>
    have hcons : boundsOf (setPosLoop true objects offset (n :: ns)) =
        ((setPosLoop true objects offset (n :: ns)).1 (shareLabel n ns.head?).debugPosInfo).bounds ::
          boundsOf (setPosLoop true _ (offset + getIRNodeWholeLength n.cls) ns) := rfl
    cases hcls : n.cls with
    | label | debugInsStartPlaceHolder | debugInsEndPlaceHolder =>
      have hzero : offset + getIRNodeWholeLength n.cls = offset := by simp [hcls, getIRNodeWholeLength]
      rw [hcons, hzero]
      simp [hcls, Laid, ih, Unshared]
    | insn i rest =>
      have hshare : shareLabel n ns.head? = n := by
        cases ns.head? <;> simp [shareLabel, hcls, NodeClass.isLabel]
      have hunshared : Unshared (n :: ns) ↔
          (∀ m ∈ ns, m.debugPosInfo ≠ n.debugPosInfo) ∧ Unshared ns := by
        simp [Unshared, List.pairwise_cons, hcls]
      have hlength := getIRNodeWholeLength_eq_iff i rest
      rw [hcons, hshare, List.map_cons, hcls, NodeClass.size?_insn, Laid, bounds_head_iff hcls,
        hunshared, List.forall_mem_cons]
      constructor
      · rintro ⟨⟨hcounts, hunused⟩, hrest⟩
        rw [← hlength.mpr hcounts, ih] at hrest
        refine ⟨⟨fun i' rest' h => ?_, hrest.1⟩, hunused, hrest.2⟩
        cases h.symm.trans hcls
        exact hcounts
      · rintro ⟨⟨hhere, hbehind⟩, hunused, hns⟩
        have hcounts := hhere i rest hcls
        rw [← hlength.mpr hcounts, ih]
        exact ⟨⟨hcounts, hunused⟩, hbehind, hns⟩

theorem boundsRight_iff (objects : Objects) (insns : List Node) :
    BoundsRight objects insns ↔
      (∀ n ∈ insns, ∀ i rest, n.cls = .insn i rest → Counts i) ∧ Unshared insns :=
  laid_iff objects 0 insns

/-! ## Both compilers -/

theorem sameFormat_iff (i : Instruction) (rest : List OperandType) :
    SameFormat i rest ↔ i.insn.classes ≠ [] ∧ (i.registers ≠ [] → i.OnlyLastFits) := by
  obtain ⟨e, hfound, hnil, hne⟩ := exists_found i rest
  obtain ⟨pre, f, post, hgroup, hpre, hf⟩ := i.exists_first
  have hsmall := InstructionSet.Insn.isSmallest_of_first hgroup hpre hf
  by_cases hclasses : i.insn.classes = []
  · have hnone : Es2panda.matchFormat i.registers (Es2panda.getFormats i.insn) = none := by
      rw [Es2panda.getFormats_of_nil hclasses]
      rfl
    simp [SameFormat, hclasses, hnone]
  · have hes := Es2panda.matchFormat_eq hsmall
    rw [← Es2panda.getFormats_of_ne_nil hclasses] at hes
    have hsame : SameFormat i rest ↔ e = f := by
      unfold SameFormat
      rw [hfound, hes]
      constructor
      · rintro ⟨e', he', hformat⟩
        cases he'
        exact InstructionSet.Insn.eq_of_width_eq (List.mem_of_getElem? hfound) hsmall.mem
          (Es2panda.map_width_eq_of_makeFormat_eq (Option.some.inj hformat).symm)
      · rintro rfl
        exact ⟨_, rfl, rfl⟩
    rw [hsame, and_iff_right hclasses, i.onlyLastFits_iff]
    constructor
    · rintro rfl hregs
      rw [← hne hregs]
      exact hsmall
    · intro h
      by_cases hregs : i.registers = []
      · exact (hnil hregs).unique hsmall
      · rw [hne hregs]
        exact (h hregs).unique hsmall

/-- Where the bounds of each compiler are right, and for which instructions both take the same format. -/
theorem instruction_bounds_iff (fe : Es2panda.FunctionEmitter)
    (body : List (Es2panda.InsNode × Es2panda.Ins)) (objects : Objects) (insns : List Node)
    (i : Instruction) (rest : List OperandType) :
    (fe.BoundsRight body ↔ ∀ node j, (node, .insn j) ∈ body → fe.Counts node j) ∧
    (BoundsRight objects insns ↔
      (∀ n ∈ insns, ∀ j rest', n.cls = .insn j rest' → Counts j) ∧ Unshared insns) ∧
    (SameFormat i rest ↔ i.insn.classes ≠ [] ∧ (i.registers ≠ [] → i.OnlyLastFits)) :=
  ⟨fe.boundsRight_iff body, boundsRight_iff objects insns, sameFormat_iff i rest⟩

/-! ## Two instructions -/

/-- `mov.dyn v1, v2`, with registers of 8 or 16 bits. -/
def movDyn : Insn where
  jump := false
  stringId := false
  callRange := false
  opcodeSize := 1
  classes := [.dstReg, .srcReg]
  group := [⟨[⟨.dstReg, 8⟩, ⟨.srcReg, 8⟩], 3⟩, ⟨[⟨.dstReg, 16⟩, ⟨.srcReg, 16⟩], 5⟩]
  group_ne_nil := by simp
  opcodeSize_pos := by simp
  classes_eq := by simp
  size_eq := by simp [Encoding.bits]
  width_mem := by simp
  width_eq := by simp
  ascending := by simp
  two_operands := by simp

def movDynLow : Instruction where
  insn := movDyn
  values := [.vreg 1, .vreg 2]
  typed := by simp [movDyn, OperandClass.isReg]
  allocated := ⟨_, List.mem_cons_self, by decide⟩

/-- `ecma.ldundefined`, which has no operands. -/
def ecmaLdundefined : Insn where
  jump := false
  stringId := false
  callRange := false
  opcodeSize := 2
  classes := []
  group := [⟨[], 2⟩]
  group_ne_nil := by simp
  opcodeSize_pos := by simp
  classes_eq := by simp
  size_eq := by simp [Encoding.bits]
  width_mem := by simp
  width_eq := by simp
  ascending := by simp
  two_operands := by simp

def loadUndefined : Instruction where
  insn := ecmaLdundefined
  values := []
  typed := .nil
  allocated := by simp [ecmaLdundefined, Encoding.Fits]

/-- The move between low registers is counted with five bytes where three are enough, and the load with
none. -/
theorem instruction_bounds_differ :
    ¬ BoundsRight (fun _ => {}) [⟨.insn movDynLow [], 0⟩] ∧ ¬ SameFormat movDynLow [] ∧
      ¬ (Es2panda.FunctionEmitter.mk none []).BoundsRight
        [(.node ⟨⟨0, 0⟩, ⟨0, 0⟩⟩, .insn loadUndefined)] := by
  have hlast : ¬ (movDynLow.registers ≠ [] → movDynLow.OnlyLastFits) := by
    intro h
    have hlow := h (by simp [Instruction.registers, movDynLow]) _ List.mem_cons_self
    exact hlow (by decide)
  refine ⟨?_, ?_, ?_⟩
  · rw [boundsRight_iff]
    intro h
    exact hlast ((counts_iff_onlyLastFits rfl).mp (h.1 _ List.mem_cons_self _ _ rfl))
  · rw [sameFormat_iff]
    intro h
    exact hlast h.2
  · rw [Es2panda.FunctionEmitter.boundsRight_iff]
    intro h
    exact (h _ _ List.mem_cons_self).classes rfl

end ArkTs2abc.Ts2panda.DebugInfo
