import ArkTs2abc.FlatCode.Fragment
import Mathlib.Logic.Relation

/-!
# Running flat code

An instruction goes on, jumps to a label or raises. What is raised goes to a
handler that is looked up by the position. The lookup and the meaning of the
instructions are parameters, and so is the condition that the steps of a run are
to meet.

`Flows.sound` is the induction over runs, made once: when the rules are right
about single instructions, every run finds at each point what the point was
emitted for.

## Main definitions

* `Outcome`, `Sem` — what an instruction may do.
* `Step`, `Run` — the machine.
* `Preserves` — rules that are right about single instructions.

## Main results

* `Flows.sound` — invariants of typed code hold along runs.
* `Frag.flows`, `Frag.points` — fragments are typed code.
-/

namespace FlatCode

/-- How an instruction ends. -/
inductive Outcome (α : Type) where
  | next
  | jump (l : Label α)
  | raise
  deriving DecidableEq, Repr

/-- What an instruction may do to a state. -/
abbrev Sem (ι α σ : Type) := ι → σ → Outcome α → σ → Prop

/-- A position and a state. -/
abbrev Config (σ : Type) := ℕ × σ

variable {ι α τ σ : Type}

/-- Where an exception goes that is raised at a position. -/
abbrev Handlers (α : Type) := ℕ → Label α → Prop

/-- One step of the machine, from the point `p`, with its outcome. -/
inductive Step (E : Sem ι α σ) (H : Handlers α) (code : List (Point ι α τ)) :
    Config σ → Point ι α τ → Outcome α → Config σ → Prop where
  | next {pc p i s s'} : code[pc]? = some p → p.node = .insn i → E i s .next s' →
      Step E H code (pc, s) p .next (pc + 1, s')
  | pass {pc p s} : code[pc]? = some p → (∀ i, p.node ≠ .insn i) →
      Step E H code (pc, s) p .next (pc + 1, s)
  | jump {pc p i l pc' s s'} : code[pc]? = some p → p.node = .insn i → E i s (.jump l) s' →
      nodeAt code pc' = some (.label l) → Step E H code (pc, s) p (.jump l) (pc', s')
  | raise {pc p i l pc' s s'} : code[pc]? = some p → p.node = .insn i → E i s .raise s' →
      H pc l → nodeAt code pc' = some (.label l) → Step E H code (pc, s) p .raise (pc', s')

/-- Runs whose steps all meet the condition `Ok`. -/
def Run (E : Sem ι α σ) (H : Handlers α) (code : List (Point ι α τ))
    (Ok : Point ι α τ → Outcome α → Prop) : Config σ → Config σ → Prop :=
  Relation.ReflTransGen fun c c' => ∃ p o, Step E H code c p o c' ∧ Ok p o

/-- The note a point leaves, by the rules. -/
def Leaves (T : Rules ι α τ) (p : Point ι α τ) (c : α) : Prop :=
  match p.node with
  | .insn i => T p.ranges p.tag p.note i c
  | _ => c = p.note

/-- Each point of the code takes up what the one before it leaves. -/
def Flows (T : Rules ι α τ) (Le : α → α → Prop) : α → List (Point ι α τ) → α → Prop
  | a, [], b => a = b
  | a, p :: ps, b => Le a p.note ∧ ∃ c, Leaves T p c ∧ Flows T Le c ps b

/-- The rules are right about single instructions: whatever an instruction does in a state that
meets its note, the point it goes to finds its own note met. -/
structure Preserves (T : Rules ι α τ) (Le : α → α → Prop) (E : Sem ι α σ)
    (Ok : Point ι α τ → Outcome α → Prop) (Inv : α → σ → Prop) : Prop where
  le {a b s} : Le a b → Inv a s → Inv b s
  next {p : Point ι α τ} {i b s s'} : p.node = .insn i → T p.ranges p.tag p.note i b →
    Inv p.note s → E i s .next s' → Ok p .next → Inv b s'
  jump {p : Point ι α τ} {i b l s s'} : p.node = .insn i → T p.ranges p.tag p.note i b →
    Inv p.note s → E i s (.jump l) s' → Ok p (.jump l) → Inv l.note s'
  raise {p : Point ι α τ} {i b r s s'} : p.node = .insn i → T p.ranges p.tag p.note i b →
    Inv p.note s → E i s .raise s' → Ok p .raise → p.ranges.head? = some r →
    Inv r.handler.note s'

section Flows

variable {T : Rules ι α τ} {Le : α → α → Prop}

theorem Flows.append {a b d : α} {c c' : List (Point ι α τ)} (h : Flows T Le a c b)
    (h' : Flows T Le b c' d) : Flows T Le a (c ++ c') d := by
  induction c generalizing a with
  | nil => exact h ▸ h'
  | cons p ps ih =>
    obtain ⟨hle, e, hl, hps⟩ := h
    exact ⟨hle, e, hl, ih hps⟩

theorem Flows.succ {a b : α} {code : List (Point ι α τ)} (h : Flows T Le a code b) {pc : ℕ}
    {p q : Point ι α τ} (hp : code[pc]? = some p) (hq : code[pc + 1]? = some q) :
    ∃ c, Leaves T p c ∧ Le c q.note := by
  induction code generalizing a pc with
  | nil => simp at hp
  | cons p' ps ih =>
    obtain ⟨-, e, hl, hps⟩ := h
    cases pc with
    | succ pc => exact ih hps hp hq
    | zero =>
      obtain rfl : p' = p := by simpa using hp
      cases ps with
      | nil => simp at hq
      | cons q' qs =>
        obtain rfl : q' = q := by simpa using hq
        exact ⟨e, hl, hps.1⟩

/-- What the induction over runs needs of code, besides the flow of its notes. -/
structure Typed (T : Rules ι α τ) (H : Handlers α) (code : List (Point ι α τ)) : Prop where
  label : ∀ p ∈ code, ∀ l, p.node = .label l → p.note = l.note
  insn : ∀ p ∈ code, ∀ i, p.node = .insn i → ∃ c, T p.ranges p.tag p.note i c
  handler : ∀ pc p l, code[pc]? = some p → H pc l → ∃ r, p.ranges.head? = some r ∧ r.handler = l

/-- Along every run, each point finds its note met. -/
theorem Flows.sound {a b : α} {code : List (Point ι α τ)} (hflows : Flows T Le a code b)
    {H : Handlers α} (htyped : Typed T H code) {E : Sem ι α σ}
    {Ok : Point ι α τ → Outcome α → Prop} {Inv : α → σ → Prop} (hpres : Preserves T Le E Ok Inv)
    {s₀ : σ} (h₀ : Inv a s₀) {pc : ℕ} {s : σ} (hrun : Run E H code Ok (0, s₀) (pc, s))
    {p : Point ι α τ} (hp : code[pc]? = some p) : Inv p.note s := by
  have hlabel {pc' : ℕ} {l : Label α} (hl : nodeAt code pc' = some (.label l)) {q : Point ι α τ}
      (hq : code[pc']? = some q) : q.note = l.note := by
    refine htyped.label q (List.mem_of_getElem? hq) l ?_
    simpa [nodeAt, hq] using hl
  generalize hc : (pc, s) = c at hrun
  induction hrun generalizing pc s p with
  | refl =>
    cases hc
    cases code with
    | nil => simp at hp
    | cons q qs =>
      obtain rfl : q = p := by simpa using hp
      exact hpres.le hflows.1 h₀
  | tail _ hstep ih =>
    subst hc
    obtain ⟨q, o, hstep, hok⟩ := hstep
    cases hstep with
    | next hq hi hE =>
      obtain ⟨e, hl, hle⟩ := hflows.succ hq hp
      simp only [Leaves, hi] at hl
      exact hpres.le hle (hpres.next hi hl (ih hq rfl) hE hok)
    | pass hq hi =>
      obtain ⟨e, hl, hle⟩ := hflows.succ hq hp
      have he : e = q.note := by
        unfold Leaves at hl
        split at hl
        · exact absurd ‹_› (hi _)
        · exact hl
      exact hpres.le (he ▸ hle) (ih hq rfl)
    | jump hq hi hE hl =>
      obtain ⟨e, hT⟩ := htyped.insn q (List.mem_of_getElem? hq) _ hi
      rw [hlabel hl hp]
      exact hpres.jump hi hT (ih hq rfl) hE hok
    | raise hq hi hE hr hl =>
      obtain ⟨e, hT⟩ := htyped.insn q (List.mem_of_getElem? hq) _ hi
      obtain ⟨r, hhead, rfl⟩ := htyped.handler _ _ _ hq hr
      rw [hlabel hl hp]
      exact hpres.raise hi hT (ih hq rfl) hE hok hhead

end Flows

section Fragments

variable {T : Rules ι α τ} {Le : α → α → Prop} {K ts : List (Range α)} {a b : α}
  {code : List (Point ι α τ)}

theorem Frag.flows (hrefl : ∀ a, Le a a) (h : Frag T Le K a code ts b) : Flows T Le a code b := by
  induction h with
  | nil => rfl
  | insn hT => exact ⟨hrefl _, _, hT, rfl⟩
  | label l hle => exact ⟨hle, _, rfl, rfl⟩
  | append _ _ ih ih' => exact ih.append ih'
  | range r _ _ ih =>
    refine ⟨hrefl _, _, rfl, ih.append ?_⟩
    exact ⟨hrefl _, _, rfl, rfl⟩

/-- The labels and instructions of a fragment stand under the notes they were emitted for. -/
theorem Frag.points (h : Frag T Le K a code ts b) : ∀ p ∈ code,
    (∀ l, p.node = .label l → p.note = l.note) ∧
      ∀ i, p.node = .insn i → ∃ c, T p.ranges p.tag p.note i c := by
  induction h with
  | nil => simp
  | insn hT => simpa using ⟨_, hT⟩
  | label l hle => simp
  | append _ _ ih ih' => exact List.forall_mem_append.mpr ⟨ih, ih'⟩
  | range r _ _ ih =>
    intro p hp
    simp only [List.mem_cons, List.mem_append, List.not_mem_nil, or_false] at hp
    rcases hp with rfl | hp | rfl
    · simp
    · exact ih p hp
    · simp

end Fragments

end FlatCode
