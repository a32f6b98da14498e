import Mathlib.Algebra.Ring.Nat
import Mathlib.Data.List.Forall2
import Mathlib.Data.List.Nodup

/-!
# The instruction set

The instruction classes of both compilers are generated from `Panda::instructions`, the description of the
instruction set, which is not part of the sources. What the templates and the passes rely on is kept as the
fields of `Insn`: the entries of a mnemonic go from narrow to wide, and one entry encodes all its registers
in the same width.

## Main definitions

* `Insn` — the entries of one mnemonic.
* `Instruction` — a mnemonic with its operands.
* `Instruction.IsSmallest` — the smallest entry that holds the registers.
* `Laid` — intervals that stand one behind the other.
-/

namespace ArkTs2abc

namespace InstructionSet

/-- What `get_operand_kind` asks of an operand. -/
inductive OperandClass where
  | srcReg | dstReg | srcDstReg | imm | id
  deriving DecidableEq, Repr

/-- `op.reg?`. -/
def OperandClass.isReg : OperandClass → Bool
  | srcReg | dstReg | srcDstReg => true
  | imm | id => false

structure Operand where
  cls : OperandClass
  width : ℕ
  deriving DecidableEq, Repr

/-- One entry, with the `size` of its format in bytes. -/
structure Encoding where
  operands : List Operand
  size : ℕ
  deriving DecidableEq, Repr

namespace Encoding

def bits (e : Encoding) : ℕ := (e.operands.map Operand.width).sum

/-- No operand shares a byte with another. -/
def WholeBytes (e : Encoding) : Prop := ∀ op ∈ e.operands, 8 ∣ op.width

end Encoding

/-- The entries of one mnemonic, from narrow to wide. -/
structure Insn where
  /-- `insn.properties` has `jump`. -/
  jump : Bool
  /-- `insn.properties` has `string_id`. -/
  stringId : Bool
  /-- `call.range` and `calli.dyn.range`. -/
  callRange : Bool
  /-- The bytes of the opcode and its prefix. -/
  opcodeSize : ℕ
  classes : List OperandClass
  group : List Encoding
  group_ne_nil : group ≠ []
  opcodeSize_pos : 0 < opcodeSize
  classes_eq : ∀ e ∈ group, e.operands.map Operand.cls = classes
  size_eq : ∀ e ∈ group, 8 * e.size = 8 * opcodeSize + e.bits
  width_mem : ∀ e ∈ group, ∀ op ∈ e.operands, op.cls.isReg → op.width ∈ [4, 8, 16]
  width_eq : ∀ e ∈ group, ∀ op ∈ e.operands, ∀ op' ∈ e.operands, op.cls.isReg → op'.cls.isReg →
    op.width = op'.width
  ascending : group.Pairwise fun e f =>
    List.Forall₂ (fun op op' => op.width ≤ op'.width) e.operands f.operands ∧ e.size < f.size
  two_operands : callRange → classes.length = 2

/-- The last entry. -/
def Insn.widest (insn : Insn) : Encoding := insn.group.getLast insn.group_ne_nil

theorem Insn.widest_mem (insn : Insn) : insn.widest ∈ insn.group := List.getLast_mem _

/-- An operand of an instruction. -/
inductive Value where
  | vreg (reg : UInt16)
  | other
  deriving DecidableEq, Repr

namespace Value

def reg? : Value → Option UInt16
  | vreg reg => some reg
  | other => none

/-- The operand can be encoded in so many bits. Only registers are looked at. -/
def FitsIn (width : ℕ) (v : Value) : Prop := ∀ reg ∈ v.reg?, reg.toNat < 2 ^ width

instance (width : ℕ) (v : Value) : Decidable (v.FitsIn width) :=
  match v with
  | vreg reg => decidable_of_iff (reg.toNat < 2 ^ width) (by simp [FitsIn, reg?])
  | other => .isTrue (by simp [FitsIn, reg?])

@[simp] theorem reg?_vreg (reg : UInt16) : (vreg reg).reg? = some reg := rfl
@[simp] theorem reg?_other : other.reg? = none := rfl

theorem FitsIn.mono {width width' : ℕ} {v : Value} (h : v.FitsIn width) (hw : width ≤ width') :
    v.FitsIn width' := by
  intro reg hreg
  exact lt_of_lt_of_le (h reg hreg) (Nat.pow_le_pow_right (by simp) hw)

end Value

/-- The registers fit the widths of the entry. -/
def Encoding.Fits (values : List Value) (e : Encoding) : Prop :=
  ∀ p ∈ e.operands.zip values, p.2.FitsIn p.1.width

instance (values : List Value) : DecidablePred (Encoding.Fits values) :=
  fun e => inferInstanceAs (Decidable (∀ p ∈ e.operands.zip values, p.2.FitsIn p.1.width))

/-- An instruction behind the register allocator: registers stand where the entries have registers, and
fit one of them. -/
structure Instruction where
  insn : Insn
  values : List Value
  typed : List.Forall₂ (fun cls v => v.reg?.isSome → cls.isReg) insn.classes values
  allocated : ∃ e ∈ insn.group, e.Fits values

namespace Instruction

variable {i : Instruction}

def registers (i : Instruction) : List UInt16 := i.values.filterMap Value.reg?

/-- The entry is the smallest that fits the registers. -/
structure IsSmallest (i : Instruction) (e : Encoding) : Prop where
  mem : e ∈ i.insn.group
  fits : e.Fits i.values
  le : ∀ f ∈ i.insn.group, f.Fits i.values → e.size ≤ f.size

/-- The byte length of the smallest entry that fits the registers. -/
def smallestSize (i : Instruction) : ℕ :=
  ((i.insn.group.filter (Encoding.Fits i.values ·)).map Encoding.size).min?.getD 0

theorem IsSmallest.size_eq {e : Encoding} (h : i.IsSmallest e) : i.smallestSize = e.size := by
  have hmin : ((i.insn.group.filter (Encoding.Fits i.values ·)).map Encoding.size).min? =
      some e.size := by
    rw [List.min?_eq_some_iff]
    constructor
    · exact List.mem_map_of_mem (List.mem_filter.mpr ⟨h.mem, by simpa using h.fits⟩)
    · intro n hn
      obtain ⟨f, hf, rfl⟩ := List.mem_map.mp hn
      obtain ⟨hmem, hfits⟩ := List.mem_filter.mp hf
      exact h.le f hmem (by simpa using hfits)
  rw [smallestSize, hmin]
  rfl

/-- The registers fit no other entry than the last. -/
def OnlyLastFits (i : Instruction) : Prop := ∀ e ∈ i.insn.group.dropLast, ¬ e.Fits i.values

theorem length_classes (i : Instruction) : i.insn.classes.length = i.values.length :=
  i.typed.length_eq

end Instruction

/-! ## Operands and their values -/

namespace Instruction

variable {i : Instruction} {e : Encoding}

theorem typed_operands (he : e ∈ i.insn.group) :
    List.Forall₂ (fun op v => v.reg?.isSome → op.cls.isReg) e.operands i.values := by
  have h := i.typed
  rw [← i.insn.classes_eq e he] at h
  exact List.forall₂_map_left_iff.mp h

theorem isReg_of_mem_zip (he : e ∈ i.insn.group) {op : Operand} {reg : UInt16}
    (h : (op, .vreg reg) ∈ e.operands.zip i.values) : op.cls.isReg :=
  (List.forall₂_iff_zip.mp (typed_operands he)).2 h rfl

theorem exists_mem_zip (he : e ∈ i.insn.group) {v : Value} (h : v ∈ i.values) :
    ∃ op, (op, v) ∈ e.operands.zip i.values := by
  have hlength := (typed_operands he).length_eq
  rw [← List.map_snd_zip (show i.values.length ≤ e.operands.length by omega), List.mem_map] at h
  obtain ⟨⟨op, v⟩, hmem, rfl⟩ := h
  exact ⟨op, hmem⟩

theorem mem_registers {reg : UInt16} : reg ∈ i.registers ↔ .vreg reg ∈ i.values := by
  rw [registers, List.mem_filterMap]
  constructor
  · rintro ⟨v, hv, hreg⟩
    cases v with
    | vreg reg' => exact Option.some.inj hreg ▸ hv
    | other => exact absurd hreg (by simp)
  · intro h
    exact ⟨_, h, rfl⟩

theorem fits_iff (he : e ∈ i.insn.group) {op : Operand} (hop : op ∈ e.operands) (hreg : op.cls.isReg) :
    e.Fits i.values ↔ ∀ reg ∈ i.registers, reg.toNat < 2 ^ op.width := by
  constructor
  · intro hfits reg hmem
    obtain ⟨op', hzip⟩ := exists_mem_zip he (mem_registers.mp hmem)
    have hop' := (List.of_mem_zip hzip).1
    rw [i.insn.width_eq e he op hop op' hop' hreg (isReg_of_mem_zip he hzip)]
    exact hfits _ hzip reg rfl
  · rintro hregs ⟨op', v⟩ hzip reg hv
    cases v with
    | other => exact absurd hv (by simp)
    | vreg reg' =>
      obtain ⟨hop', hvalue⟩ := List.of_mem_zip hzip
      rw [← Option.some.inj hv,
        ← i.insn.width_eq e he op hop op' hop' hreg (isReg_of_mem_zip he hzip)]
      exact hregs _ (mem_registers.mpr hvalue)

theorem fits_of_registers (h : i.registers = []) (e : Encoding) : e.Fits i.values := by
  rintro ⟨op, v⟩ hzip reg hv
  cases v with
  | other => exact absurd hv (by simp)
  | vreg reg' =>
    have hmem := mem_registers.mpr (List.of_mem_zip hzip).2
    simp [h] at hmem

theorem exists_reg_operand (he : e ∈ i.insn.group) (h : i.registers ≠ []) :
    ∃ op ∈ e.operands, op.cls.isReg := by
  obtain ⟨reg, hreg⟩ := List.exists_mem_of_ne_nil _ h
  obtain ⟨op, hzip⟩ := exists_mem_zip he (mem_registers.mp hreg)
  exact ⟨op, (List.of_mem_zip hzip).1, isReg_of_mem_zip he hzip⟩

end Instruction

/-! ## The entries of a mnemonic -/

namespace Insn

variable {insn : Insn} {e f : Encoding}

theorem length_operands (h : e ∈ insn.group) : e.operands.length = insn.classes.length := by
  rw [← insn.classes_eq e h, List.length_map]

theorem forall_fitsIn_of_le {ops ops' : List Operand} {values : List Value}
    (h : List.Forall₂ (fun op op' => op.width ≤ op'.width) ops ops')
    (hops : ∀ p ∈ ops.zip values, p.2.FitsIn p.1.width) :
    ∀ p ∈ ops'.zip values, p.2.FitsIn p.1.width := by
  induction h generalizing values with
  | nil => simp
  | cons hop _ ih =>
    cases values with
    | nil => simp
    | cons v vs =>
      simp only [List.zip_cons_cons, List.mem_cons, forall_eq_or_imp] at hops ⊢
      exact ⟨hops.1.mono hop, ih hops.2⟩

theorem group_eq (insn : Insn) : insn.group = insn.group.dropLast ++ [insn.widest] :=
  (List.dropLast_append_getLast insn.group_ne_nil).symm

theorem size_lt_widest (h : e ∈ insn.group.dropLast) : e.size < insn.widest.size := by
  have hasc := insn.ascending
  rw [group_eq, List.pairwise_append] at hasc
  exact (hasc.2.2 e h _ List.mem_cons_self).2

theorem fits_widest {values : List Value} (he : e ∈ insn.group) (h : e.Fits values) :
    insn.widest.Fits values := by
  have hasc := insn.ascending
  rw [group_eq] at he hasc
  rw [List.pairwise_append] at hasc
  rcases List.mem_append.mp he with he | he
  · exact forall_fitsIn_of_le (hasc.2.2 e he _ List.mem_cons_self).1 h
  · rwa [← List.mem_singleton.mp he]

theorem isSmallest_of_first {i : Instruction} {pre post : List Encoding}
    (hgroup : i.insn.group = pre ++ e :: post) (hpre : ∀ f ∈ pre, ¬ f.Fits i.values)
    (he : e.Fits i.values) : i.IsSmallest e where
  mem := by simp [hgroup]
  fits := he
  le f hf hfits := by
    have hasc := i.insn.ascending
    rw [hgroup, List.pairwise_append, List.pairwise_cons] at hasc
    rw [hgroup, List.mem_append, List.mem_cons] at hf
    rcases hf with hf | rfl | hf
    · exact absurd hfits (hpre f hf)
    · exact le_rfl
    · exact Nat.le_of_lt (hasc.2.1.1 f hf).2

theorem eq_of_size_eq (he : e ∈ insn.group) (hf : f ∈ insn.group) (h : e.size = f.size) : e = f := by
  have hnodup : (insn.group.map Encoding.size).Nodup :=
    List.pairwise_map.mpr (insn.ascending.imp fun h => Nat.ne_of_lt h.2)
  exact List.inj_on_of_nodup_map hnodup he hf h

theorem eq_of_width_eq (he : e ∈ insn.group) (hf : f ∈ insn.group)
    (h : e.operands.map Operand.width = f.operands.map Operand.width) : e = f := by
  have hsize := insn.size_eq e he
  have hsize' := insn.size_eq f hf
  rw [Encoding.bits] at hsize hsize'
  rw [h] at hsize
  exact eq_of_size_eq he hf (by omega)

end Insn

theorem Instruction.IsSmallest.unique {i : Instruction} {e f : Encoding} (he : i.IsSmallest e)
    (hf : i.IsSmallest f) : e = f :=
  Insn.eq_of_size_eq he.mem hf.mem (le_antisymm (he.le f hf.mem hf.fits) (hf.le e he.mem he.fits))

theorem Instruction.exists_first (i : Instruction) : ∃ pre e post, i.insn.group = pre ++ e :: post ∧
    (∀ f ∈ pre, ¬ f.Fits i.values) ∧ e.Fits i.values := by
  obtain ⟨e, he, hfits⟩ := i.allocated
  cases hfind : i.insn.group.find? (Encoding.Fits i.values ·) with
  | none =>
    have hnone := List.find?_eq_none.mp hfind e he
    simp [hfits] at hnone
  | some f =>
    obtain ⟨hf, pre, post, hgroup, hpre⟩ := List.find?_eq_some_iff_append.mp hfind
    exact ⟨pre, f, post, hgroup, by simpa using hpre, by simpa using hf⟩

theorem sum_width (ops : List Operand) : (ops.map Operand.width).sum =
    8 * (ops.map (·.width / 8)).sum + (ops.map (·.width % 8)).sum := by
  induction ops with
  | nil => rfl
  | cons op ops ih =>
    simp only [List.map_cons, List.sum_cons, ih]
    omega

theorem Instruction.onlyLastFits_iff (i : Instruction) :
    i.OnlyLastFits ↔ i.IsSmallest i.insn.widest := by
  constructor
  · intro h
    obtain ⟨e, he, hfits⟩ := i.allocated
    exact Insn.isSmallest_of_first i.insn.group_eq h (Insn.fits_widest he hfits)
  · intro h e he hfits
    have hle := h.le e (List.dropLast_subset _ he) hfits
    have hlt := Insn.size_lt_widest he
    omega

theorem Insn.size_eq_iff {insn : Insn} {e : Encoding} (he : e ∈ insn.group) :
    1 + (e.operands.map (·.width / 8)).sum = e.size ↔ insn.opcodeSize = 1 ∧ e.WholeBytes := by
  have hsize := insn.size_eq e he
  have hpos := insn.opcodeSize_pos
  have hbits := sum_width e.operands
  have hwhole : (e.operands.map (·.width % 8)).sum = 0 ↔ e.WholeBytes := by
    simp [Encoding.WholeBytes, List.sum_eq_zero_iff_forall_eq_nat, Nat.dvd_iff_mod_eq_zero]
  rw [← hwhole]
  rw [Encoding.bits] at hsize
  omega

end InstructionSet

/-- The intervals stand one behind the other from `offset` on and have the sizes; what has no size may have
any interval. -/
def Laid {α : Type} [Add α] (offset : α) : List (Option α) → List (Option (α × α)) → Prop
  | [], [] => True
  | none :: sizes, _ :: bounds => Laid offset sizes bounds
  | some n :: sizes, b :: bounds => b = some (offset, offset + n) ∧ Laid (offset + n) sizes bounds
  | [], _ :: _ => False
  | _ :: _, [] => False

end ArkTs2abc
