import ArkTs2abc.Es2panda.Util.UString
import ArkTs2abc.Unicode.Text

/-!
# The iterator of a string

An iterator moves by the number of bytes that the lead byte announces. Whether the bytes are there is
never asked, so it leaves a string that ends inside of a sequence, and reads on behind it.

## Main definitions

* `next`, `peekCp`, `skipCp` — the operations of the iterator.
* `Consistent` — the operations move alike, and never behind the end.
* `Complete` — no sequence from a position on is cut off by the end.

## Main results

* `consistent_iff` — when the operations are consistent.
* `decodeCP_bytesFrom` — the iterator and the one on a list of bytes.
* `codePoints_utf8Text` — what `Next` gives over a text.
-/

namespace ArkTs2abc.Es2panda.StringIterator

/-- A view: what the memory holds from its first byte on, and its size. -/
structure View where
  memory : ℕ → UInt8
  size : ℕ

variable (sv : View) (iter : ℕ)

/-! ## The operations -/

/-- The bits of a continuation byte. -/
def cont (i : ℕ) : ℕ := (sv.memory i).toNat &&& 0x3F

/-- `DecodeCP` behind `HasNext`: the code point, and the iterator behind what has been read. -/
def decodeCP : ℕ × ℕ :=
  let cu0 := (sv.memory iter).toNat
  if cu0 < 0x80 then (cu0, iter + 1)
  else if cu0 &&& 0xE0 = 0xC0 then
    ((cu0 &&& 0x1F) <<< 6 ||| cont sv (iter + 1), iter + 2)
  else if cu0 &&& 0xF0 = 0xE0 then
    ((cu0 &&& 0x0F) <<< 12 ||| cont sv (iter + 1) <<< 6 ||| cont sv (iter + 2), iter + 3)
  else if cu0 &&& 0xF8 = 0xF0 ∧ cu0 ≤ 0xF4 then
    ((cu0 &&& 0x07) <<< 18 ||| cont sv (iter + 1) <<< 12 ||| cont sv (iter + 2) <<< 6 |||
      cont sv (iter + 3), iter + 4)
  else (INVALID_CP, iter + 1)

def next : ℕ × ℕ := if iter ≠ sv.size then decodeCP sv iter else (INVALID_CP, iter)

/-- `PeekCp` with a variable for the size, which keeps its value at the end. -/
def peekCp (cpSize : ℕ) : ℕ × ℕ :=
  if iter ≠ sv.size then
    let (res, iterNext) := decodeCP sv iter
    (res, iterNext - iter)
  else (INVALID_CP, cpSize)

def forward (offset : ℕ) : ℕ := iter + offset

def skipCp : ℕ :=
  if iter ≠ sv.size then
    let cu0 := (sv.memory iter).toNat
    if cu0 < 0x80 then iter + 1
    else if cu0 &&& 0xE0 = 0xC0 then iter + 1 + 1
    else if cu0 &&& 0xF0 = 0xE0 then iter + 1 + 2
    else if cu0 &&& 0xF8 = 0xF0 ∧ cu0 ≤ 0xF4 then iter + 1 + 3
    else iter + 1
  else iter

/-- What a caller does to an iterator. -/
inductive Operation where
  | next | peekCpForward | skipCp
  deriving DecidableEq, Repr

/-- Where an operation leaves the iterator. The callers of `PeekCp` start with `size_t cpSize {}`. -/
def Operation.move : Operation → ℕ
  | .next => (StringIterator.next sv iter).2
  | .peekCpForward => forward iter (peekCp sv iter 0).2
  | .skipCp => StringIterator.skipCp sv iter

def run : List Operation → ℕ → ℕ
  | [], iter => iter
  | op :: ops, iter => run ops (op.move sv iter)

/-- From a position on, the operations move alike and never behind the end. -/
structure Consistent : Prop where
  alike : ∀ op op' : Operation, op.move sv iter = op'.move sv iter
  within : ∀ ops, run sv ops iter ≤ sv.size

/-! ## The length of a sequence -/

/-- The bytes of the sequence that a byte starts; a byte that starts none stands for itself. -/
def announced (lead : ℕ) : ℕ :=
  if lead < 0xC0 then 1
  else if lead < 0xE0 then 2
  else if lead < 0xF0 then 3
  else if lead < 0xF5 then 4
  else 1

/-- The sequences from a position on end with the string. -/
inductive Complete : ℕ → Prop where
  | done : Complete sv.size
  | sequence {iter : ℕ} (h : iter < sv.size)
      (rest : Complete (iter + announced (sv.memory iter).toNat)) : Complete iter

variable {sv iter}

theorem decodeCP_snd : (decodeCP sv iter).2 = iter + announced (sv.memory iter).toNat := by
  have hlt : (sv.memory iter).toNat < 0x100 := (sv.memory iter).toNat_lt
  unfold decodeCP announced
  simp only [marker_two _ hlt, marker_three _ hlt, marker_four _ hlt]
  grind

theorem skipCp_eq_next : skipCp sv iter = (next sv iter).2 := by
  unfold skipCp next decodeCP
  grind

theorem Operation.move_eq (op : Operation) : op.move sv iter =
    if iter = sv.size then iter else iter + announced (sv.memory iter).toNat := by
  have hnext : (StringIterator.next sv iter).2 =
      if iter = sv.size then iter else iter + announced (sv.memory iter).toNat := by
    unfold StringIterator.next
    grind [decodeCP_snd]
  cases op with
  | next => exact hnext
  | skipCp => exact skipCp_eq_next.trans hnext
  | peekCpForward =>
    unfold move forward peekCp
    grind [decodeCP_snd]

theorem announced_pos (lead : ℕ) : 0 < announced lead := by
  unfold announced
  split_ifs
  all_goals decide

theorem Complete.le (h : Complete sv iter) : iter ≤ sv.size := by
  cases h with
  | done => exact Nat.le_refl _
  | sequence h => exact Nat.le_of_lt h

theorem Complete.move (h : Complete sv iter) (op : Operation) : Complete sv (op.move sv iter) := by
  rw [op.move_eq]
  split
  next hend => exact h
  next hne =>
    cases h with
    | done => exact absurd rfl hne
    | sequence _ rest => exact rest

theorem Complete.run (h : Complete sv iter) (ops : List Operation) : run sv ops iter ≤ sv.size := by
  induction ops generalizing iter with
  | nil => exact h.le
  | cons op ops ih => exact ih (h.move op)

theorem complete_of_within (h : ∀ ops, run sv ops iter ≤ sv.size) : Complete sv iter := by
  have hle : iter ≤ sv.size := h []
  induction hn : sv.size - iter using Nat.strong_induction_on generalizing iter with
  | _ n ih =>
    rcases Nat.eq_or_lt_of_le hle with rfl | hlt
    · exact .done
    · have hpos := announced_pos (sv.memory iter).toNat
      have hmove : Operation.next.move sv iter = iter + announced (sv.memory iter).toNat := by
        rw [Operation.move_eq, if_neg (Nat.ne_of_lt hlt)]
      have hrest (ops : List Operation) :
          run sv ops (iter + announced (sv.memory iter).toNat) ≤ sv.size := by
        rw [← hmove]
        exact h (.next :: ops)
      exact .sequence hlt (ih _ (by omega) hrest (hrest []) rfl)

/-- The operations agree everywhere; they stay within the string from a position on just if the
sequences from there on end with it. -/
theorem consistent_iff (sv : View) (iter : ℕ) : Consistent sv iter ↔ Complete sv iter := by
  constructor
  · intro h
    exact complete_of_within h.within
  · intro h
    refine ⟨fun op op' => ?_, h.run⟩
    rw [op.move_eq, op'.move_eq]

/-- A lead byte at the end of its string. -/
theorem lead_byte_leaves : ¬ Consistent ⟨fun _ => 0xC3, 1⟩ 0 := by
  intro h
  exact absurd (h.within [.next]) (by decide)

/-! ## Texts -/

open Unicode

/-- The bytes from a position up to the end of the string. -/
def bytesFrom (sv : View) (iter : ℕ) : List UInt8 :=
  (List.range' iter (sv.size - iter)).map sv.memory

theorem bytesFrom_of_lt (h : iter < sv.size) :
    bytesFrom sv iter = sv.memory iter :: bytesFrom sv (iter + 1) := by
  simp [bytesFrom, show sv.size - iter = sv.size - (iter + 1) + 1 by omega, List.range'_succ]

theorem bytesFrom_of_le (h : sv.size ≤ iter) : bytesFrom sv iter = [] := by
  simp [bytesFrom, Nat.sub_eq_zero_of_le h]

/-- Where the iterator stays in the string, it agrees with the one on a list of bytes, which has no
result elsewhere. -/
theorem decodeCP_bytesFrom (h : iter < sv.size) :
    Es2panda.decodeCP (bytesFrom sv iter) = if (decodeCP sv iter).2 ≤ sv.size then
      some ((decodeCP sv iter).1, bytesFrom sv (decodeCP sv iter).2) else none := by
  have hrest (i : ℕ) (hi : i < sv.size) := bytesFrom_of_lt hi
  simp only [Es2panda.decodeCP, decodeCP, cont, bytesFrom_of_lt h]
  split_ifs with hone _ htwo hle hthree hle hfour hle
  all_goals dsimp only at *
  all_goals try omega
  · rw [hrest (iter + 1) (by omega)]
  · rw [bytesFrom_of_le (by omega)]
  · rw [hrest (iter + 1) (by omega), hrest (iter + 2) (by omega)]
  · rcases hbytes : bytesFrom sv (iter + 1) with _ | ⟨a, _ | ⟨b, l⟩⟩
    all_goals grind [bytesFrom]
  · rw [hrest (iter + 1) (by omega), hrest (iter + 2) (by omega), hrest (iter + 3) (by omega)]
  · rcases hbytes : bytesFrom sv (iter + 1) with _ | ⟨a, _ | ⟨b, _ | ⟨c, l⟩⟩⟩
    all_goals grind [bytesFrom]

/-- The code points that so many calls of `Next` give. -/
def codePoints (sv : View) : ℕ → ℕ → List ℕ
  | 0, _ => []
  | n + 1, iter => (next sv iter).1 :: codePoints sv n (next sv iter).2

/-- Over the bytes of a text `Next` gives its characters, and no operation leaves the string. -/
theorem codePoints_utf8Text (sv : View) (iter : ℕ) (cs : List Char) (hle : iter ≤ sv.size)
    (h : bytesFrom sv iter = utf8Text cs) :
    codePoints sv cs.length iter = cs.map Char.toNat ∧ ∀ ops, run sv ops iter ≤ sv.size := by
  suffices hcs : codePoints sv cs.length iter = cs.map Char.toNat ∧ Complete sv iter from
    ⟨hcs.1, hcs.2.run⟩
  induction cs generalizing iter with
  | nil =>
    rcases Nat.lt_or_ge iter sv.size with hlt | hge
    · simp [bytesFrom_of_lt hlt] at h
    · obtain rfl := Nat.le_antisymm hle hge
      exact ⟨rfl, .done⟩
  | cons c cs ih =>
    have hdecode := decodeCP_utf8_append (toNat_char_lt c).1 (utf8Text cs)
    rw [← utf8Text_cons, ← h] at hdecode
    rcases Nat.lt_or_ge iter sv.size with hlt | hge
    · rw [decodeCP_bytesFrom hlt] at hdecode
      split at hdecode
      next hnext =>
        obtain ⟨hc, hrest⟩ := Prod.mk.inj (Option.some.inj hdecode)
        obtain ⟨hcs, hcomplete⟩ := ih _ hnext hrest
        rw [decodeCP_snd] at hcomplete
        refine ⟨?_, .sequence hlt hcomplete⟩
        simp [codePoints, next, Nat.ne_of_lt hlt, hc, hcs]
      next => cases hdecode
    · simp [bytesFrom_of_le hge, utf8Text_cons, utf8_ne_nil] at h

theorem codePoints_utf8Text_euro :
    codePoints ⟨fun i => [0xC3, 0xA9, 0xE2, 0x82, 0xAC].getD i 0, 5⟩ 2 0 = ['é', '€'].map Char.toNat :=
  (codePoints_utf8Text _ 0 ['é', '€'] (by decide) (by decide)).1

end ArkTs2abc.Es2panda.StringIterator
