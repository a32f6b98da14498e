import Mathlib.Data.List.Basic

/-!
# Code whose jumps go forward

A jump leads to the next place in the rest of the code where its label stands. Running such
code comes to an end, so `run` is a function. What the instructions do is a parameter, an
exception among it.

## Main definitions

* `Item`, `Transfer` — code, and where an instruction leads.
* `run` — running code.
* `Closed` — code that is not left by a jump.
* `Behaves` — code that acts as a single instruction would.

## Main results

* `Closed.run_append` — closed code is run before what follows it.
* `Behaves.append`, `Behaves.append_error`, `Behaves.append_jump`, `Behaves.append_leave` — the
  pieces of a fragment, put together.
-/

namespace FlatCode.Forward

inductive Item (ι l : Type) where
  | insn (i : ι)
  | label (name : l)
  deriving DecidableEq, Repr

/-- Where an instruction leads. -/
inductive Transfer (l : Type) where
  | next
  | jump (target : l)
  deriving DecidableEq, Repr

variable {ι l σ ε : Type} [DecidableEq l]

def Item.isLabel (target : l) : Item ι l → Bool
  | .insn _ => false
  | .label name => name = target

@[simp] theorem Item.isLabel_insn (target : l) (i : ι) :
    (Item.insn i : Item ι l).isLabel target = false := rfl

@[simp] theorem Item.isLabel_label (target name : l) :
    (Item.label name : Item ι l).isLabel target = decide (name = target) := rfl

/-- The rest of the code from a label on. -/
def jumpTo (target : l) (code : List (Item ι l)) : List (Item ι l) :=
  code.dropWhile fun item => !item.isLabel target

@[simp] theorem jumpTo_insn (target : l) (i : ι) (code : List (Item ι l)) :
    jumpTo target (.insn i :: code) = jumpTo target code := by
  simp [jumpTo]

@[simp] theorem jumpTo_label_self (target : l) (code : List (Item ι l)) :
    jumpTo target (.label target :: code) = .label target :: code := by
  simp [jumpTo]

theorem jumpTo_label_of_ne {target name : l} (h : name ≠ target) (code : List (Item ι l)) :
    jumpTo target (.label name :: code) = jumpTo target code := by
  simp [jumpTo, h]

theorem length_jumpTo_le (target : l) (code : List (Item ι l)) :
    (jumpTo target code).length ≤ code.length :=
  (List.dropWhile_sublist _).length_le

def run (exec : ι → σ → Except ε (Transfer l × σ)) : List (Item ι l) → σ → Except ε σ
  | [], s => .ok s
  | .label _ :: code, s => run exec code s
  | .insn i :: code, s =>
    match exec i s with
    | .error e => .error e
    | .ok (.next, s') => run exec code s'
    | .ok (.jump target, s') => run exec (jumpTo target code) s'
termination_by code => code.length
decreasing_by
  · simp
  · simp
  · exact Nat.lt_succ_of_le (length_jumpTo_le _ _)

section Run

variable {exec : ι → σ → Except ε (Transfer l × σ)} {i : ι} {s s' : σ}

@[simp] theorem run_nil (s : σ) : run exec [] s = .ok s := by
  rw [run]

@[simp] theorem run_label (name : l) (code : List (Item ι l)) (s : σ) :
    run exec (.label name :: code) s = run exec code s := by
  rw [run]

theorem run_next (h : exec i s = .ok (.next, s')) (code : List (Item ι l)) :
    run exec (.insn i :: code) s = run exec code s' := by
  rw [run, h]

theorem run_jump {target : l} (h : exec i s = .ok (.jump target, s'))
    (code : List (Item ι l)) :
    run exec (.insn i :: code) s = run exec (jumpTo target code) s' := by
  rw [run, h]

theorem run_error {e : ε} (h : exec i s = .error e) (code : List (Item ι l)) :
    run exec (.insn i :: code) s = .error e := by
  rw [run, h]

/-- Every jump of the code leads to a label further on in it. -/
def Closed (exec : ι → σ → Except ε (Transfer l × σ)) : List (Item ι l) → Prop
  | [] => True
  | .label _ :: code => Closed exec code
  | .insn i :: code =>
    (∀ s target s', exec i s = .ok (.jump target, s') → .label target ∈ code) ∧ Closed exec code

theorem jumpTo_append {target : l} {code : List (Item ι l)} (h : .label target ∈ code)
    (rest : List (Item ι l)) : jumpTo target (code ++ rest) = jumpTo target code ++ rest := by
  induction code with
  | nil => simp at h
  | cons item code ih =>
    cases item with
    | insn i =>
      rw [List.cons_append, jumpTo_insn, jumpTo_insn]
      exact ih (by simpa using h)
    | label name =>
      by_cases eq : name = target
      · rw [eq, List.cons_append, jumpTo_label_self, jumpTo_label_self, List.cons_append]
      · rw [List.cons_append, jumpTo_label_of_ne eq, jumpTo_label_of_ne eq]
        exact ih (by simpa [Ne.symm eq] using h)

namespace Closed

variable {code : List (Item ι l)}

omit [DecidableEq l] in
theorem append (h : Closed exec code) {code' : List (Item ι l)} (h' : Closed exec code') :
    Closed exec (code ++ code') := by
  induction code with
  | nil => exact h'
  | cons item code ih =>
    cases item with
    | insn i => exact ⟨fun s target s' e => List.mem_append_left _ (h.1 s target s' e), ih h.2⟩
    | label name => exact ih h

theorem jumpTo (h : Closed exec code) (target : l) : Closed exec (jumpTo target code) := by
  induction code with
  | nil => exact h
  | cons item code ih =>
    cases item with
    | insn i => simpa using ih h.2
    | label name =>
      by_cases eq : name = target
      · simpa [eq] using h
      · rw [jumpTo_label_of_ne eq]
        exact ih h

theorem run_append (h : Closed exec code) (rest : List (Item ι l)) (s : σ) :
    run exec (code ++ rest) s = (run exec code s).bind (run exec rest) := by
  induction code, s using run.induct exec with
  | case1 s => simp [Except.bind]
  | case2 name code s ih => simpa using ih h
  | case3 i code s e eq => simp [run_error eq, Except.bind]
  | case4 i code s s' eq ih =>
    rw [List.cons_append, run_next eq, run_next eq, ih h.2]
  | case5 i code s target s' eq ih =>
    rw [List.cons_append, run_jump eq, run_jump eq, jumpTo_append (h.1 s target s' eq),
      ih (h.2.jumpTo target)]

end Closed

/-! ### Fragments that act as one instruction -/

/-- The labels that stand in the code. -/
def labels (code : List (Item ι l)) : List l :=
  code.filterMap fun
    | .insn _ => none
    | .label name => some name

omit [DecidableEq l] in
@[simp, grind =] theorem labels_nil : labels ([] : List (Item ι l)) = [] := rfl

omit [DecidableEq l] in
@[simp, grind =] theorem labels_insn (i : ι) (code : List (Item ι l)) :
    labels (.insn i :: code) = labels code := rfl

omit [DecidableEq l] in
@[simp, grind =] theorem labels_label (name : l) (code : List (Item ι l)) :
    labels (.label name :: code) = name :: labels code := rfl

omit [DecidableEq l] in
@[simp, grind =] theorem labels_append (code code' : List (Item ι l)) :
    labels (code ++ code') = labels code ++ labels code' :=
  List.filterMap_append

theorem jumpTo_append_of_notMem {target : l} {code : List (Item ι l)} (h : target ∉ labels code)
    (rest : List (Item ι l)) : jumpTo target (code ++ rest) = jumpTo target rest := by
  induction code with
  | nil => rfl
  | cons item code ih =>
    cases item with
    | insn i =>
      rw [List.cons_append, jumpTo_insn]
      exact ih h
    | label name =>
      simp only [labels_label, List.mem_cons, not_or] at h
      rw [List.cons_append, jumpTo_label_of_ne (Ne.symm h.1)]
      exact ih h.2

/-- Whatever follows, the code does what an instruction with this outcome does. -/
def Behaves (exec : ι → σ → Except ε (Transfer l × σ)) (code : List (Item ι l)) (s : σ) :
    Except ε (Transfer l × σ) → Prop
  | .error e => ∀ rest, run exec (code ++ rest) s = .error e
  | .ok (.next, s') => ∀ rest, run exec (code ++ rest) s = run exec rest s'
  | .ok (.jump target, s') =>
    ∀ rest, run exec (code ++ rest) s = run exec (jumpTo target rest) s'

namespace Behaves

variable {code code' : List (Item ι l)} {target : l} {o : Except ε (Transfer l × σ)}

theorem nil (s : σ) : Behaves exec [] s (.ok (.next, s)) := fun _ => rfl

theorem insn (i : ι) (s : σ) : Behaves exec [.insn i] s (exec i s) := by
  rcases h : exec i s with e | ⟨_ | target, s'⟩
  · exact fun rest => run_error h rest
  · exact fun rest => run_next h rest
  · exact fun rest => run_jump h rest

theorem label (name : l) (h : Behaves exec code s o) : Behaves exec (.label name :: code) s o := by
  rcases o with e | ⟨_ | target, s'⟩ <;> intro rest <;> rw [List.cons_append, run_label] <;>
    exact h rest

theorem of_label {name : l} (h : Behaves exec (.label name :: code) s o) :
    Behaves exec code s o := by
  rcases o with e | ⟨_ | target, s'⟩ <;> intro rest <;> rw [← run_label name (code ++ rest)] <;>
    exact h rest

theorem append (h : Behaves exec code s (.ok (.next, s'))) (h' : Behaves exec code' s' o) :
    Behaves exec (code ++ code') s o := by
  rcases o with e | ⟨_ | target, s''⟩ <;> intro rest <;> rw [List.append_assoc, h] <;>
    exact h' rest

theorem cons (h : exec i s = .ok (.next, s')) (h' : Behaves exec code s' o) :
    Behaves exec (.insn i :: code) s o := by
  rcases o with e | ⟨_ | target, s''⟩ <;> intro rest <;> rw [List.cons_append, run_next h] <;>
    exact h' rest

theorem append_error {e : ε} (h : Behaves exec code s (.error e)) (code' : List (Item ι l)) :
    Behaves exec (code ++ code') s (.error e) := fun rest => by
  rw [List.append_assoc]
  exact h _

theorem append_jump (h : Behaves exec code s (.ok (.jump target, s')))
    (before after : List (Item ι l)) (hcode : code' = before ++ .label target :: after)
    (hbefore : target ∉ labels before) (h' : Behaves exec after s' o) :
    Behaves exec (code ++ code') s o := by
  have hrun (rest : List (Item ι l)) :
      run exec (code ++ code' ++ rest) s = run exec (after ++ rest) s' := by
    rw [List.append_assoc, h, hcode, List.append_assoc, jumpTo_append_of_notMem hbefore,
      List.cons_append, jumpTo_label_self, run_label]
  rcases o with e | ⟨_ | name, s''⟩ <;> intro rest <;> rw [hrun] <;> exact h' rest

theorem append_leave (h : Behaves exec code s (.ok (.jump target, s')))
    (hcode' : target ∉ labels code') :
    Behaves exec (code ++ code') s (.ok (.jump target, s')) := fun rest => by
  rw [List.append_assoc, h, jumpTo_append_of_notMem hcode']

end Behaves

end Run

end FlatCode.Forward
