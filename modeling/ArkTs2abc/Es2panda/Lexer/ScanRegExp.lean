import ArkTs2abc.Es2panda.Lexer.KeywordsUtil
import Mathlib.Data.List.Nodup
import Mathlib.Data.List.TakeWhile
import Mathlib.Data.Nat.Bitwise

/-!
# Regular expression literals

The parser scans a literal from the end of the token of its slash on, which may have
taken an equals sign with it. The pattern is read by code points, but the character
behind a backslash by its first byte.

## Main definitions

* `scanRegExpPattern`, `scanRegExpFlags`, `scanRegExp` — as in the lexer, up to the white space behind.
* `regExpLiteral` — the literal of `ParsePrimaryExpression`, from behind its slash on.
* `RegularExpressionBody`, `Delimited` — the body of the grammar, and a literal with its flags.

## Main results

* `regExpLiteral_delimits_iff` — the literals that are delimited as the grammar says.
-/

namespace ArkTs2abc.Es2panda

open Unicode

namespace Lexer

/-! ## The scanner -/

/-- The cases of an ended line in `ScanRegExpPattern`. -/
def isLineEnd (cp : ℕ) : Bool :=
  cp = INVALID_CP || cp = LEX_CHAR_LF || cp = LEX_CHAR_CR || cp = LEX_CHAR_LS || cp = LEX_CHAR_PS

/-- `IsLineTerminatorOrEos`. -/
def isLineTerminatorOrEos (iter : List UInt8) : Option Bool :=
  (decodeCP iter).map fun (cp, _) => isLineEnd cp

/-- The loop of `ScanRegExpPattern`, for at most `n` rounds: the iterator before the slash. -/
def scanRegExpPatternLoop : ℕ → (isCharClass : Bool) → List UInt8 → Option (List UInt8)
  | 0, _, _ => none
  | n + 1, isCharClass, iter => do
    let (cp, next) ← decodeCP iter
    let cpSize := iter.length - next.length
    if isLineEnd cp then none
    else if cp = '/'.toNat ∧ isCharClass = false then some iter
    else if cp = '['.toNat then scanRegExpPatternLoop n true (iter.drop cpSize)
    else if cp = ']'.toNat then scanRegExpPatternLoop n false (iter.drop cpSize)
    else if cp = '\\'.toNat then do
      let iter := iter.tail
      let ended ← isLineTerminatorOrEos iter
      scanRegExpPatternLoop n isCharClass (if ended then iter else iter.drop cpSize)
    else scanRegExpPatternLoop n isCharClass (iter.drop cpSize)

def scanRegExpPattern (iter : List UInt8) : Option (List UInt8) :=
  scanRegExpPatternLoop (iter.length + 1) false iter

/-- The `RegExpFlags` of a letter. -/
def regExpFlag (cp : ℕ) : Option ℕ :=
  if cp = 'g'.toNat then some (2 ^ 0)
  else if cp = 'i'.toNat then some (2 ^ 1)
  else if cp = 'm'.toNat then some (2 ^ 2)
  else if cp = 's'.toNat then some (2 ^ 5)
  else if cp = 'u'.toNat then some (2 ^ 4)
  else if cp = 'y'.toNat then some (2 ^ 3)
  else none

/-- The loop of `ScanRegExpFlags`, for at most `n` rounds. -/
def scanRegExpFlagsLoop (idContinue : ℕ → Bool) :
    ℕ → (resultFlags : ℕ) → List UInt8 → Option (ℕ × List UInt8)
  | 0, _, _ => none
  | n + 1, resultFlags, iter => do
    let (cp, next) ← decodeCP iter
    if isIdentifierPart idContinue cp = false then some (resultFlags, iter)
    else match regExpFlag cp with
      | none => some (resultFlags, next)
      | some flag =>
        if flag = 0 ∨ resultFlags &&& flag ≠ 0 then none
        else scanRegExpFlagsLoop idContinue n (resultFlags ||| flag) next

def scanRegExpFlags (idContinue : ℕ → Bool) (iter : List UInt8) : Option (ℕ × List UInt8) :=
  scanRegExpFlagsLoop idContinue (iter.length + 1) 0 iter

end Lexer

structure RegExp where
  patternStr : List UInt8
  flagsStr : List UInt8
  flags : ℕ

namespace Lexer

/-- `ScanRegExp`, and the iterator behind the flags. -/
def scanRegExp (idContinue : ℕ → Bool) (iter : List UInt8) : Option (RegExp × List UInt8) := do
  let slash ← scanRegExpPattern iter
  let flagsStart := slash.tail
  let (resultFlags, after) ← scanRegExpFlags idContinue flagsStart
  some (⟨sourceView iter slash, sourceView flagsStart after, resultFlags⟩, after)

/-- The end of the token of a slash: `ScanSlashPunctuator`. -/
def scanSlashPunctuator (iter : List UInt8) : List UInt8 :=
  if peek iter = '='.toNat then iter.tail else iter

/-- `ParsePrimaryExpression` for the token of a slash, from behind the slash on. -/
def regExpLiteral (idContinue : ℕ → Bool) (iter : List UInt8) : Option (RegExp × List UInt8) :=
  scanRegExp idContinue (scanSlashPunctuator iter)

end Lexer

/-! ## The grammar -/

def lineTerminators : List Char := ['\n', '\r', '\u2028', '\u2029']

/-- Any number of `RegularExpressionClassChar`. -/
inductive RegularExpressionClassChars : List Char → Prop where
  | nil : RegularExpressionClassChars []
  | char {c : Char} {cs : List Char} (hc : c ∉ lineTerminators ++ [']', '\\']) :
      RegularExpressionClassChars cs → RegularExpressionClassChars (c :: cs)
  | escape {c : Char} {cs : List Char} (hc : c ∉ lineTerminators) :
      RegularExpressionClassChars cs → RegularExpressionClassChars ('\\' :: c :: cs)

inductive RegularExpressionChars : List Char → Prop where
  | nil : RegularExpressionChars []
  | char {c : Char} {cs : List Char} (hc : c ∉ lineTerminators ++ ['\\', '/', '[']) :
      RegularExpressionChars cs → RegularExpressionChars (c :: cs)
  | escape {c : Char} {cs : List Char} (hc : c ∉ lineTerminators) :
      RegularExpressionChars cs → RegularExpressionChars ('\\' :: c :: cs)
  | cls {ds cs : List Char} (hds : RegularExpressionClassChars ds) :
      RegularExpressionChars cs → RegularExpressionChars ('[' :: ds ++ ']' :: cs)

/-- It is not empty and does not start with an asterisk, as comments do. -/
structure RegularExpressionBody (body : List Char) : Prop where
  chars : RegularExpressionChars body
  ne_nil : body ≠ []
  first : body.head? ≠ some '*'

/-- The letters of the supported flags. -/
def flagLetters : List Char := ['g', 'i', 'm', 's', 'u', 'y']

/-- A text, from behind the slash on, that starts with a literal: its body, its flags, and the rest. -/
structure Delimited (idContinue : ℕ → Bool) (cs body flags rest : List Char) : Prop where
  eq : cs = body ++ '/' :: (flags ++ rest)
  body : RegularExpressionBody body
  letters : ∀ c ∈ flags, c ∈ flagLetters
  nodup : flags.Nodup
  run : ∀ c ∈ rest.head?, Lexer.IdentifierPart idContinue c = false

/-- The lexer delimits the literals of a text as the grammar does. -/
def Delimits (idContinue : ℕ → Bool) (cs : List Char) : Prop :=
  ∀ flagsStr iter, (∃ patternStr flags, Lexer.regExpLiteral idContinue (utf8Text cs) =
      some (⟨patternStr, flagsStr, flags⟩, iter)) ↔
    ∃ body flags rest, Delimited idContinue cs body flags rest ∧ flagsStr = utf8Text flags ∧
      iter = utf8Text rest

/-- Whether some character behind a backslash is not an ASCII character. -/
def EscapesWide : List Char → Bool
  | '\\' :: c :: cs => 0x80 ≤ c.toNat || EscapesWide cs
  | _ :: cs => EscapesWide cs
  | [] => false

/-! ## Bodies by the state of the scanner -/

/-- Whether the scanner is in a class behind a character. -/
def classAfter (isCharClass : Bool) (c : Char) : Bool :=
  if c = '[' then true else if c = ']' then false else isCharClass

/-- What is left of a body, inside or outside of a class. -/
inductive BodyFrom : Bool → List Char → Prop where
  | nil : BodyFrom false []
  | char {isCharClass : Bool} {c : Char} {cs : List Char} (hc : c ∉ lineTerminators)
      (hescape : c ≠ '\\') (hslash : c = '/' → isCharClass = true) :
      BodyFrom (classAfter isCharClass c) cs → BodyFrom isCharClass (c :: cs)
  | escape {isCharClass : Bool} {c : Char} {cs : List Char} (hc : c ∉ lineTerminators) :
      BodyFrom isCharClass cs → BodyFrom isCharClass ('\\' :: c :: cs)

theorem BodyFrom.of_classChars {ds cs : List Char} (hds : RegularExpressionClassChars ds)
    (hcs : BodyFrom false cs) : BodyFrom true (ds ++ ']' :: cs) := by
  induction hds with
  | nil => exact .char (by decide) (by decide) (fun _ => rfl) hcs
  | @char c ds hc _ ih =>
    simp only [List.mem_append, List.mem_cons, List.not_mem_nil, or_false, not_or] at hc
    obtain ⟨hline, hclose, hescape⟩ := hc
    have hclass : classAfter true c = true := by simp [classAfter, hclose]
    exact .char hline hescape (fun _ => rfl) (by rwa [hclass])
  | escape hc _ ih => exact .escape hc ih

theorem BodyFrom.of_chars {cs : List Char} (h : RegularExpressionChars cs) : BodyFrom false cs := by
  induction h with
  | nil => exact .nil
  | @char c cs hc _ ih =>
    simp only [List.mem_append, List.mem_cons, List.not_mem_nil, or_false, not_or] at hc
    obtain ⟨hline, hescape, hslash, hopen⟩ := hc
    have hclass : classAfter false c = false := by simp [classAfter, hopen]
    exact .char hline hescape (fun heq => absurd heq hslash) (by rwa [hclass])
  | escape hc _ ih => exact .escape hc ih
  | cls hds _ ih => exact .char (by decide) (by decide) (fun heq => absurd heq (by decide)) (.of_classChars hds ih)

/-- Outside of a class a body is left, in a class the rest of the class and then a body. -/
theorem BodyFrom.chars {isCharClass : Bool} {cs : List Char} (h : BodyFrom isCharClass cs) :
    if isCharClass then ∃ ds es, cs = ds ++ ']' :: es ∧ RegularExpressionClassChars ds ∧
      RegularExpressionChars es
    else RegularExpressionChars cs := by
  induction h with
  | nil => exact .nil
  | @char isCharClass c cs hc hescape hslash _ ih =>
    rcases isCharClass with _ | _
    · have hslash' : c ≠ '/' := fun heq => absurd (hslash heq) nofun
      by_cases hopen : c = '['
      · subst hopen
        obtain ⟨ds, es, rfl, hds, hes⟩ := ih
        exact .cls hds hes
      · have hclass : classAfter false c = false := by simp [classAfter, hopen]
        rw [hclass] at ih
        exact .char (by simp [hc, hescape, hslash', hopen]) ih
    · by_cases hclose : c = ']'
      · subst hclose
        exact ⟨[], cs, rfl, .nil, ih⟩
      · have hclass : classAfter true c = true := by simp [classAfter, hclose]
        rw [hclass] at ih
        obtain ⟨ds, es, rfl, hds, hes⟩ := ih
        exact ⟨c :: ds, es, rfl, .char (by simp [hc, hescape, hclose]) hds, hes⟩
  | @escape isCharClass c cs hc _ ih =>
    rcases isCharClass with _ | _
    · exact .escape hc ih
    · obtain ⟨ds, es, rfl, hds, hes⟩ := ih
      exact ⟨'\\' :: c :: ds, es, rfl, .escape hc hds, hes⟩

theorem bodyFrom_iff {cs : List Char} : BodyFrom false cs ↔ RegularExpressionChars cs :=
  ⟨BodyFrom.chars, .of_chars⟩

/-- A text has one body at most. -/
theorem BodyFrom.unique {isCharClass : Bool} {cs ds rest rest' : List Char}
    (h : BodyFrom isCharClass cs) (h' : BodyFrom isCharClass ds)
    (heq : cs ++ '/' :: rest = ds ++ '/' :: rest') : cs = ds ∧ rest = rest' := by
  induction h generalizing ds with
  | nil =>
    cases h' with
    | nil => simpa using heq
    | char _ _ hslash => exact absurd (hslash (List.cons.inj heq).1.symm) nofun
    | escape => exact absurd (List.cons.inj heq).1 (by decide)
  | char _ hescape hslash _ ih =>
    cases h' with
    | nil => exact absurd (hslash (List.cons.inj heq).1) nofun
    | char _ _ _ hds =>
      obtain ⟨rfl, htail⟩ := List.cons.inj heq
      obtain ⟨rfl, hrest⟩ := ih hds htail
      exact ⟨rfl, hrest⟩
    | escape => exact absurd (List.cons.inj heq).1 hescape
  | escape _ _ ih =>
    cases h' with
    | nil => exact absurd (List.cons.inj heq).1 (by decide)
    | char _ hescape => exact absurd (List.cons.inj heq).1.symm hescape
    | escape _ hds =>
      simp only [List.cons_append, List.cons.injEq, true_and] at heq
      obtain ⟨rfl, htail⟩ := heq
      obtain ⟨rfl, hrest⟩ := ih hds htail
      exact ⟨rfl, hrest⟩

/-! ## The scanner on a text -/

/-- What the scanner makes of a text: what is left of it, from the slash on. -/
def scanBody (isCharClass : Bool) : List Char → Option (List Char)
  | [] => none
  | c :: cs =>
    if c ∈ lineTerminators then none
    else if c = '/' ∧ isCharClass = false then some (c :: cs)
    else if c = '\\' then
      match cs with
      | [] => none
      | d :: cs => if d ∈ lineTerminators ∨ 0x80 ≤ d.toNat then none else scanBody isCharClass cs
    else scanBody (classAfter isCharClass c) cs

namespace Lexer

theorem isLineEnd_toNat (c : Char) : isLineEnd c.toNat = decide (c ∈ lineTerminators) := by
  have hlt := char_lt c
  have hinvalid : c.toNat ≠ INVALID_CP := by
    rw [INVALID_CP]
    omega
  have hlf : c.toNat = LEX_CHAR_LF ↔ c = '\n' := @Char.toNat_inj c '\n'
  have hcr : c.toNat = LEX_CHAR_CR ↔ c = '\r' := @Char.toNat_inj c '\r'
  have hls : c.toNat = LEX_CHAR_LS ↔ c = '\u2028' := @Char.toNat_inj c '\u2028'
  have hps : c.toNat = LEX_CHAR_PS ↔ c = '\u2029' := @Char.toNat_inj c '\u2029'
  simp [isLineEnd, lineTerminators, hinvalid, hlf, hcr, hls, hps, Bool.or_assoc]

theorem scanRegExpPatternLoop_lineEnd {iter : List UInt8} (h : isLineTerminatorOrEos iter = some true)
    (n : ℕ) (isCharClass : Bool) : scanRegExpPatternLoop n isCharClass iter = none := by
  rw [isLineTerminatorOrEos, Option.map_eq_some_iff] at h
  obtain ⟨⟨cp, next⟩, hdecode, hend⟩ := h
  have hend' : isLineEnd cp = true := hend
  rcases n with _ | n
  · rfl
  · rw [scanRegExpPatternLoop, hdecode]
    simp [hend']

theorem drop_cpSize (c : Char) (cs : List Char) :
    (utf8Text (c :: cs)).drop ((utf8Text (c :: cs)).length - (utf8Text cs).length) = utf8Text cs := by
  rw [utf8Text_cons, List.length_append, Nat.add_sub_cancel]
  exact List.drop_left

/-- The pattern of a text is scanned character by character. -/
theorem scanRegExpPatternLoop_utf8Text (cs : List Char) {n : ℕ} (hn : cs.length < n)
    (isCharClass : Bool) :
    scanRegExpPatternLoop n isCharClass (utf8Text cs) = (scanBody isCharClass cs).map utf8Text := by
  induction n generalizing cs isCharClass with
  | zero => exact absurd hn (Nat.not_lt_zero _)
  | succ n ih =>
    rcases cs with _ | ⟨c, cs⟩
    · exact scanRegExpPatternLoop_lineEnd rfl (n + 1) isCharClass
    have hn' : cs.length < n := by simpa using hn
    have hchar (d : Char) : c.toNat = d.toNat ↔ c = d := Char.toNat_inj
    rw [scanRegExpPatternLoop, decodeCP_utf8Text_cons, scanBody.eq_def]
    simp only [Option.bind_eq_bind, Option.bind_some, isLineEnd_toNat, hchar, drop_cpSize,
      decide_eq_true_eq, ih cs hn']
    by_cases hline : c ∈ lineTerminators
    · simp only [if_pos hline, Option.map_none]
    by_cases hslash : c = '/' ∧ isCharClass = false
    · simp only [if_neg hline, if_pos hslash, Option.map_some]
    by_cases hescape : c = '\\'
    swap
    · simp only [if_neg hline, if_neg hslash, if_neg hescape, classAfter]
      split_ifs <;> rfl
    -- The step behind the backslash is one byte.
    subst hescape
    have hone : (utf8Text ('\\' :: cs)).length - (utf8Text cs).length = 1 := by
      rw [utf8Text_cons_ascii (by decide), List.length_cons]
      omega
    rw [tail_utf8Text_ascii (by decide), hone]
    rcases cs with _ | ⟨d, cs⟩
    · exact scanRegExpPatternLoop_lineEnd rfl n isCharClass
    have hended : isLineTerminatorOrEos (utf8Text (d :: cs)) = some (decide (d ∈ lineTerminators)) := by
      rw [isLineTerminatorOrEos, decodeCP_utf8Text_cons, Option.map_some]
      exact congrArg some (isLineEnd_toNat d)
    simp only [hended, Option.bind_some, List.drop_one]
    by_cases hd : d ∈ lineTerminators
    · rw [decide_eq_true hd] at hended
      simp [hd, hline, scanRegExpPatternLoop_lineEnd hended]
    rcases Nat.lt_or_ge d.toNat 0x80 with hascii | hge
    · have hlt : cs.length < n := by simp at hn'; omega
      simp [hd, hline, tail_utf8Text_ascii hascii, ih cs hlt, Nat.not_le.mpr hascii]
    · obtain ⟨iter, hdecode⟩ := decodeCP_tail_utf8Text hge cs
      have hend : isLineTerminatorOrEos (utf8Text (d :: cs)).tail = some true := by
        rw [isLineTerminatorOrEos, hdecode]
        rfl
      simp [hd, hline, scanRegExpPatternLoop_lineEnd hend, hge]

theorem scanRegExpPattern_utf8Text (cs : List Char) :
    scanRegExpPattern (utf8Text cs) = (scanBody false cs).map utf8Text :=
  scanRegExpPatternLoop_utf8Text cs (Nat.lt_succ_of_le (length_le_utf8Text cs)) false

end Lexer

theorem escapesWide_cons {c : Char} (hc : c ≠ '\\') (cs : List Char) :
    EscapesWide (c :: cs) = EscapesWide cs := by
  rw [EscapesWide.eq_def]
  split <;> grind

/-- A body is found just if none of the characters behind its backslashes is wide. -/
theorem scanBody_eq_some_iff {isCharClass : Bool} {cs tail : List Char} :
    scanBody isCharClass cs = some tail ↔ ∃ body rest, cs = body ++ '/' :: rest ∧ tail = '/' :: rest ∧
      BodyFrom isCharClass body ∧ EscapesWide body = false := by
  constructor
  · fun_induction scanBody isCharClass cs with
    | case1 => nofun
    | case2 => nofun
    | case3 isCharClass c cs hline hslash =>
      intro h
      obtain ⟨rfl, rfl⟩ := hslash
      cases h
      exact ⟨[], cs, rfl, rfl, .nil, rfl⟩
    | case4 => nofun
    | case5 => nofun
    | case6 isCharClass d cs hd hline hslash ih =>
      intro h
      obtain ⟨hterminator, hascii⟩ := not_or.mp hd
      obtain ⟨body, rest, rfl, rfl, hbody, hwide⟩ := ih h
      exact ⟨'\\' :: d :: body, rest, rfl, rfl, .escape hterminator hbody, by
        simp [EscapesWide, hascii, hwide]⟩
    | case7 isCharClass c cs hline hslash hescape ih =>
      intro h
      obtain ⟨body, rest, rfl, rfl, hbody, hwide⟩ := ih h
      have hclass : c = '/' → isCharClass = true := by simpa using hslash
      exact ⟨c :: body, rest, rfl, rfl, .char hline hescape hclass hbody,
        (escapesWide_cons hescape body).trans hwide⟩
  · rintro ⟨body, rest, rfl, rfl, hbody, hwide⟩
    induction hbody with
    | nil =>
      have hslash : '/' ∉ lineTerminators := by decide
      rw [List.nil_append, scanBody.eq_def]
      simp only [if_neg hslash, and_self, if_true]
    | @char isCharClass c cs hc hescape hslash _ ih =>
      rw [escapesWide_cons hescape] at hwide
      have hend : ¬ (c = '/' ∧ isCharClass = false) := by simpa using hslash
      rw [List.cons_append, scanBody.eq_def]
      simp only [if_neg hc, if_neg hend, if_neg hescape]
      exact ih hwide
    | @escape isCharClass c cs hc _ ih =>
      rw [EscapesWide, Bool.or_eq_false_iff, decide_eq_false_iff_not] at hwide
      have hd : ¬ (c ∈ lineTerminators ∨ 0x80 ≤ c.toNat) := not_or.mpr ⟨hc, hwide.1⟩
      have hbackslash : '\\' ∉ lineTerminators := by decide
      have hslash : ¬ ('\\' = '/' ∧ isCharClass = false) := fun h => absurd h.1 (by decide)
      rw [List.cons_append, List.cons_append, scanBody.eq_def]
      simp only [if_neg hbackslash, if_neg hslash, if_true, if_neg hd]
      exact ih hwide.2

/-! ## Flags -/

/-- The letters at the start of a text that are flags. -/
def letterRun (cs : List Char) : List Char := cs.takeWhile (· ∈ flagLetters)

/-- What stands behind them. -/
def behindLetters (cs : List Char) : List Char := cs.dropWhile (· ∈ flagLetters)

/-- A character that is read as a part of an identifier, and no flag, is skipped. -/
def behindFlags (idContinue : ℕ → Bool) (cs : List Char) : List Char :=
  match behindLetters cs with
  | [] => []
  | c :: cs => if Lexer.isIdentifierPart idContinue c.toNat then cs else c :: cs

namespace Lexer

theorem regExpFlag_eq_none {c : Char} (h : c ∉ flagLetters) : regExpFlag c.toNat = none := by
  simp only [flagLetters, List.mem_cons, List.not_mem_nil, or_false, not_or] at h
  obtain ⟨hg, hi, hm, hs, hu, hy⟩ := h
  simp only [regExpFlag, if_neg (toNat_ne hg), if_neg (toNat_ne hi), if_neg (toNat_ne hm),
    if_neg (toNat_ne hs), if_neg (toNat_ne hu), if_neg (toNat_ne hy)]

theorem regExpFlag_letter {c : Char} (h : c ∈ flagLetters) : ∃ i, regExpFlag c.toNat = some (2 ^ i) ∧
    ∀ d ∈ flagLetters, regExpFlag d.toNat = some (2 ^ i) → d = c := by
  simp only [flagLetters, List.mem_cons, List.not_mem_nil, or_false] at h
  rcases h with rfl | rfl | rfl | rfl | rfl | rfl
  all_goals exact ⟨_, rfl, by decide⟩

/-- The flags that are set are those of some letters. -/
def FlagsOf (resultFlags : ℕ) (seen : List Char) : Prop :=
  ∀ c ∈ flagLetters, ∀ flag, regExpFlag c.toNat = some flag → (resultFlags &&& flag ≠ 0 ↔ c ∈ seen)

theorem FlagsOf.nil : FlagsOf 0 [] := by
  intro c _ flag _
  simp

theorem FlagsOf.cons {resultFlags flag : ℕ} {seen : List Char} {c : Char}
    (h : FlagsOf resultFlags seen) (hc : c ∈ flagLetters) (hflag : regExpFlag c.toNat = some flag) :
    FlagsOf (resultFlags ||| flag) (c :: seen) := by
  intro d hd flag' hflag'
  have hseen := h d hd flag' hflag'
  obtain ⟨i, hi, hunique⟩ := regExpFlag_letter hc
  obtain ⟨j, hj, -⟩ := regExpFlag_letter hd
  obtain rfl := Option.some.inj (hi.symm.trans hflag)
  obtain rfl := Option.some.inj (hj.symm.trans hflag')
  have hbit (n : ℕ) : n &&& 2 ^ j ≠ 0 ↔ n.testBit j = true := by
    rw [Nat.and_two_pow]
    cases n.testBit j <;> simp
  rw [hbit] at hseen
  rw [hbit, Nat.testBit_or, Bool.or_eq_true, hseen, Nat.testBit_two_pow, List.mem_cons, or_comm]
  refine or_congr ?_ Iff.rfl
  constructor
  · intro hij
    obtain rfl := of_decide_eq_true hij
    exact hunique d hd hj
  · rintro rfl
    have := Option.some.inj (hi.symm.trans hj)
    exact decide_eq_true (Nat.pow_right_injective (Nat.le_refl 2) this)

/-- All letters are read if there is none twice; the character behind them is read too if it is taken
for a part of an identifier. -/
theorem scanRegExpFlagsLoop_utf8Text (idContinue : ℕ → Bool) (cs : List Char) {n resultFlags : ℕ}
    {seen : List Char} (hn : cs.length < n) (h : FlagsOf resultFlags seen) (hseen : seen.Nodup) :
    if (letterRun cs ++ seen).Nodup then ∃ flags, scanRegExpFlagsLoop idContinue n resultFlags
      (utf8Text cs) = some (flags, utf8Text (behindFlags idContinue cs))
    else scanRegExpFlagsLoop idContinue n resultFlags (utf8Text cs) = none := by
  induction cs generalizing n resultFlags seen with
  | nil =>
    obtain ⟨n, rfl⟩ : ∃ k, n = k + 1 := ⟨n - 1, by omega⟩
    have hflag : regExpFlag INVALID_CP = none := by decide
    refine (if_pos hseen).mpr ⟨resultFlags, ?_⟩
    rw [utf8Text_nil, scanRegExpFlagsLoop]
    cases isIdentifierPart idContinue INVALID_CP <;> simp [decodeCP, hflag, behindFlags, behindLetters]
  | cons c cs ih =>
    obtain ⟨n, rfl⟩ : ∃ k, n = k + 1 := ⟨n - 1, by omega⟩
    have hn' : cs.length < n := by simpa using hn
    by_cases hc : c ∈ flagLetters
    · have hpart : isIdentifierPart idContinue c.toNat = true := by
        simp only [flagLetters, List.mem_cons, List.not_mem_nil, or_false] at hc
        rcases hc with rfl | rfl | rfl | rfl | rfl | rfl <;> rfl
      have hrun : letterRun (c :: cs) = c :: letterRun cs := by simp [letterRun, hc]
      have hbehind : behindFlags idContinue (c :: cs) = behindFlags idContinue cs := by
        simp [behindFlags, behindLetters, hc]
      obtain ⟨i, hi, -⟩ := regExpFlag_letter hc
      have hset := h c hc _ hi
      have hpos : (2 : ℕ) ^ i ≠ 0 := Nat.two_pow_pos i |>.ne'
      have hstep : scanRegExpFlagsLoop idContinue (n + 1) resultFlags (utf8Text (c :: cs)) =
          if resultFlags &&& 2 ^ i ≠ 0 then none
          else scanRegExpFlagsLoop idContinue n (resultFlags ||| 2 ^ i) (utf8Text cs) := by
        rw [scanRegExpFlagsLoop, decodeCP_utf8Text_cons]
        simp [hpart, hi]
      rw [hstep, hrun, hbehind]
      simp only [List.cons_append, ← List.nodup_middle]
      by_cases hmem : c ∈ seen
      · have hdup : ¬ (letterRun cs ++ c :: seen).Nodup := by
          rw [List.nodup_middle, List.nodup_cons]
          exact fun hnodup => hnodup.1 (List.mem_append_right _ hmem)
        rw [if_pos (hset.mpr hmem), if_neg hdup]
      · rw [if_neg (mt hset.mp hmem)]
        exact ih hn' (h.cons hc hi) (List.nodup_cons.mpr ⟨hmem, hseen⟩)
    · have hrun : letterRun (c :: cs) = [] := by simp [letterRun, hc]
      have hbehind : behindFlags idContinue (c :: cs) =
          if isIdentifierPart idContinue c.toNat then cs else c :: cs := by
        simp [behindFlags, behindLetters, hc]
      rw [hrun, List.nil_append, if_pos hseen, hbehind]
      refine ⟨resultFlags, ?_⟩
      rw [scanRegExpFlagsLoop, decodeCP_utf8Text_cons]
      cases hpart : isIdentifierPart idContinue c.toNat <;> simp [hpart, regExpFlag_eq_none hc]

theorem scanRegExpFlags_utf8Text (idContinue : ℕ → Bool) (cs : List Char) :
    if (letterRun cs).Nodup then
      ∃ flags, scanRegExpFlags idContinue (utf8Text cs) = some (flags, utf8Text (behindFlags idContinue cs))
    else scanRegExpFlags idContinue (utf8Text cs) = none := by
  have hn := Nat.lt_succ_of_le (length_le_utf8Text cs)
  have h := scanRegExpFlagsLoop_utf8Text idContinue cs hn .nil List.nodup_nil
  rwa [List.append_nil] at h

theorem scanBody_scanSlashPunctuator (cs : List Char) : ∃ ds, scanSlashPunctuator (utf8Text cs) =
    utf8Text ds ∧ scanBody false ds = scanBody false cs := by
  have hpeek := peek_utf8Text_eq_iff (d := '=') (by decide) cs
  rw [scanSlashPunctuator]
  by_cases hhead : cs.head? = some '='
  · obtain ⟨ds, rfl⟩ := List.head?_eq_some_iff.mp hhead
    refine ⟨ds, ?_, ?_⟩
    · rw [if_pos (hpeek.mpr hhead), tail_utf8Text_ascii (by decide)]
    · rw [scanBody.eq_def false ('=' :: ds)]
      simp [lineTerminators, classAfter]
  · exact ⟨cs, by rw [if_neg (mt hpeek.mp hhead)], rfl⟩

theorem regExpLiteral_eq_none (idContinue : ℕ → Bool) {cs : List Char} (h : scanBody false cs = none) :
    regExpLiteral idContinue (utf8Text cs) = none := by
  obtain ⟨ds, hstart, hds⟩ := scanBody_scanSlashPunctuator cs
  rw [regExpLiteral, hstart, scanRegExp, scanRegExpPattern_utf8Text, hds, h]
  rfl

theorem regExpLiteral_eq_of_body (idContinue : ℕ → Bool) {cs rest : List Char}
    (h : scanBody false cs = some ('/' :: rest)) :
    if (letterRun rest).Nodup then ∃ patternStr flags, regExpLiteral idContinue (utf8Text cs) =
      some (⟨patternStr, sourceView (utf8Text rest) (utf8Text (behindFlags idContinue rest)), flags⟩,
        utf8Text (behindFlags idContinue rest))
    else regExpLiteral idContinue (utf8Text cs) = none := by
  obtain ⟨ds, hstart, hds⟩ := scanBody_scanSlashPunctuator cs
  have hflags := scanRegExpFlags_utf8Text idContinue rest
  rw [regExpLiteral, hstart, scanRegExp, scanRegExpPattern_utf8Text, hds, h]
  simp only [Option.map_some, Option.bind_eq_bind, Option.bind_some,
    tail_utf8Text_ascii (by decide : '/'.toNat < 0x80)]
  split_ifs at hflags ⊢ with hnodup
  · obtain ⟨flags, hflags⟩ := hflags
    exact ⟨_, flags, by rw [hflags]; rfl⟩
  · rw [hflags]
    rfl

theorem IdentifierPart_letter (idContinue : ℕ → Bool) {c : Char} (h : c ∈ flagLetters) :
    IdentifierPart idContinue c = true := by
  simp only [flagLetters, List.mem_cons, List.not_mem_nil, or_false] at h
  rcases h with rfl | rfl | rfl | rfl | rfl | rfl <;> rfl

end Lexer

/-! ## Where the two agree -/

theorem letterRun_append_behindLetters (cs : List Char) : letterRun cs ++ behindLetters cs = cs :=
  List.takeWhile_append_dropWhile

theorem letterRun_append {flags rest : List Char} (hflags : ∀ c ∈ flags, c ∈ flagLetters)
    (hrest : ∀ c ∈ rest.head?, c ∉ flagLetters) :
    letterRun (flags ++ rest) = flags ∧ behindLetters (flags ++ rest) = rest := by
  induction flags with
  | nil =>
    cases rest with
    | nil => exact ⟨rfl, rfl⟩
    | cons c rest => simp [letterRun, behindLetters, hrest c rfl]
  | cons c flags ih =>
    obtain ⟨hc, hflags⟩ := List.forall_mem_cons.mp hflags
    obtain ⟨hrun, hbehind⟩ := ih hflags
    constructor
    · rw [letterRun, List.cons_append, List.takeWhile_cons_of_pos (by simpa using hc)]
      exact congrArg (c :: ·) hrun
    · rw [behindLetters, List.cons_append, List.dropWhile_cons_of_pos (by simpa using hc)]
      exact hbehind

theorem delimited_iff {idContinue : ℕ → Bool} {cs body rest : List Char} (hcs : cs = body ++ '/' :: rest)
    (hbody : RegularExpressionBody body) (ds flags tail : List Char) :
    Delimited idContinue cs ds flags tail ↔ (ds = body ∧ flags = letterRun rest ∧
      tail = behindLetters rest ∧ (letterRun rest).Nodup ∧
      ∀ c ∈ (behindLetters rest).head?, Lexer.IdentifierPart idContinue c = false) := by
  constructor
  · intro h
    obtain ⟨rfl, hrest⟩ := (BodyFrom.of_chars h.body.chars).unique (.of_chars hbody.chars)
      (h.eq.symm.trans hcs)
    have hhead : ∀ c ∈ tail.head?, c ∉ flagLetters := by
      intro c hc hletter
      have := h.run c hc
      rw [Lexer.IdentifierPart_letter idContinue hletter] at this
      exact absurd this nofun
    obtain ⟨hrun, hbehind⟩ := letterRun_append h.letters hhead
    rw [← hrest, hrun, hbehind]
    exact ⟨rfl, rfl, rfl, h.nodup, h.run⟩
  · rintro ⟨rfl, rfl, rfl, hnodup, hrun⟩
    exact {
      eq := by rw [letterRun_append_behindLetters, hcs]
      body := hbody
      letters := fun c hc => by simpa using List.mem_takeWhile_imp hc
      nodup := hnodup
      run := hrun }

/-- Whether a literal is read as the grammar says. Where its flags are no valid ones for another letter,
an escaped wide character in the body must have stopped the scanner; else there must be no such
character, and what stands behind the flags must not be taken for a part of an identifier. -/
def Readable (idContinue : ℕ → Bool) (cs : List Char) : Prop :=
  ∀ body rest, cs = body ++ '/' :: rest → RegularExpressionBody body → (letterRun rest).Nodup →
    if ∃ c ∈ (behindLetters rest).head?, Lexer.IdentifierPart idContinue c = true then
      EscapesWide body = true
    else EscapesWide body = false ∧
      ∀ c ∈ (behindLetters rest).head?, Lexer.isIdentifierPart idContinue c.toNat = false

section Literal

variable {idContinue : ℕ → Bool} {cs : List Char}

theorem RegularExpressionBody.of_from {body rest : List Char}
    (hstart : cs.head? ≠ some '/' ∧ cs.head? ≠ some '*') (hcs : cs = body ++ '/' :: rest)
    (h : BodyFrom false body) : RegularExpressionBody body := by
  refine ⟨bodyFrom_iff.mp h, ?_, ?_⟩
  · rintro rfl
    exact hstart.1 (by rw [hcs]; rfl)
  · intro hfirst
    obtain ⟨tail, rfl⟩ := List.head?_eq_some_iff.mp hfirst
    exact hstart.2 (by rw [hcs]; rfl)

theorem delimits_of_no_body (hstart : cs.head? ≠ some '/' ∧ cs.head? ≠ some '*')
    (h : ∀ body rest, cs = body ++ '/' :: rest → ¬ RegularExpressionBody body) :
    Delimits idContinue cs := by
  have hnone : scanBody false cs = none := by
    rw [Option.eq_none_iff_forall_ne_some]
    intro tail htail
    obtain ⟨body, rest, hcs, -, hbody, -⟩ := scanBody_eq_some_iff.mp htail
    exact h body rest hcs (.of_from hstart hcs hbody)
  intro flagsStr iter
  rw [Lexer.regExpLiteral_eq_none idContinue hnone]
  constructor
  · rintro ⟨-, -, ⟨⟩⟩
  · rintro ⟨body, flags, rest, hdelimited, -, -⟩
    exact absurd hdelimited.body (h body (flags ++ rest) hdelimited.eq)

theorem behindFlags_eq_iff (rest : List Char) : behindFlags idContinue rest = behindLetters rest ↔
    ∀ c ∈ (behindLetters rest).head?, Lexer.isIdentifierPart idContinue c.toNat = false := by
  unfold behindFlags
  cases behindLetters rest with
  | nil => simp
  | cons c cs => cases hpart : Lexer.isIdentifierPart idContinue c.toNat <;> simp [hpart]

/-- With a body the question is what comes of the flags. -/
theorem delimits_iff_of_body {body rest : List Char} (hcs : cs = body ++ '/' :: rest)
    (hbody : RegularExpressionBody body) :
    Delimits idContinue cs ↔ ((letterRun rest).Nodup →
      if ∃ c ∈ (behindLetters rest).head?, Lexer.IdentifierPart idContinue c = true then
        EscapesWide body = true
      else EscapesWide body = false ∧
        ∀ c ∈ (behindLetters rest).head?, Lexer.isIdentifierPart idContinue c.toNat = false) := by
  have hspec (flagsStr iter : List UInt8) : (∃ ds flags tail, Delimited idContinue cs ds flags tail ∧
      flagsStr = utf8Text flags ∧ iter = utf8Text tail) ↔
      ((letterRun rest).Nodup ∧
        (¬ ∃ c ∈ (behindLetters rest).head?, Lexer.IdentifierPart idContinue c = true) ∧
        flagsStr = utf8Text (letterRun rest) ∧ iter = utf8Text (behindLetters rest)) := by
    simp only [delimited_iff hcs hbody]
    grind
  unfold Delimits
  simp only [hspec]
  by_cases hwide : EscapesWide body = true
  · have hnone : scanBody false cs = none := by
      rw [Option.eq_none_iff_forall_ne_some]
      intro tail htail
      obtain ⟨ds, rest', hcs', -, hds, hnarrow⟩ := scanBody_eq_some_iff.mp htail
      obtain ⟨rfl, -⟩ := hds.unique (.of_chars hbody.chars) (hcs'.symm.trans hcs)
      exact absurd (hwide.symm.trans hnarrow) nofun
    rw [Lexer.regExpLiteral_eq_none idContinue hnone]
    constructor
    · intro h hnodup
      split_ifs with hnext
      · exact hwide
      · obtain ⟨-, -, ⟨⟩⟩ := (h _ _).mpr ⟨hnodup, hnext, rfl, rfl⟩
    · intro h flagsStr iter
      refine ⟨by rintro ⟨-, -, ⟨⟩⟩, fun ⟨hnodup, hnext, _⟩ => ?_⟩
      have hflags := h hnodup
      rw [if_neg hnext] at hflags
      exact absurd (hwide.symm.trans hflags.1) nofun
  · have hsome : scanBody false cs = some ('/' :: rest) :=
      scanBody_eq_some_iff.mpr ⟨body, rest, hcs, rfl, .of_chars hbody.chars, by simpa using hwide⟩
    have hcode := Lexer.regExpLiteral_eq_of_body idContinue hsome
    by_cases hnodup : (letterRun rest).Nodup
    · rw [if_pos hnodup] at hcode
      obtain ⟨patternStr, flags, hcode⟩ := hcode
      rw [hcode]
      constructor
      · intro h _
        obtain ⟨-, hnext, -, htail⟩ := (h _ _).mp ⟨patternStr, flags, rfl⟩
        rw [if_neg hnext]
        exact ⟨by simpa using hwide, (behindFlags_eq_iff rest).mp (utf8Text_injective htail)⟩
      · intro h flagsStr iter
        have hflags := h hnodup
        split_ifs at hflags with hnext
        · exact absurd hflags hwide
        · have hview := Lexer.sourceView_append (utf8Text (letterRun rest))
            (utf8Text (behindLetters rest))
          rw [← utf8Text_append, letterRun_append_behindLetters] at hview
          rw [(behindFlags_eq_iff rest).mpr hflags.2, hview]
          constructor
          · rintro ⟨-, -, ⟨⟩⟩
            exact ⟨hnodup, hnext, rfl, rfl⟩
          · rintro ⟨-, -, rfl, rfl⟩
            exact ⟨patternStr, flags, rfl⟩
    · rw [if_neg hnodup] at hcode
      simp [hcode, hnodup]

/-- The lexer delimits a literal as the grammar does just if it is readable. -/
theorem regExpLiteral_delimits_iff (hstart : cs.head? ≠ some '/' ∧ cs.head? ≠ some '*') :
    Delimits idContinue cs ↔ Readable idContinue cs := by
  by_cases h : ∃ body rest, cs = body ++ '/' :: rest ∧ RegularExpressionBody body
  · obtain ⟨body, rest, hcs, hbody⟩ := h
    rw [delimits_iff_of_body hcs hbody]
    constructor
    · intro hflags body' rest' hcs' hbody'
      obtain ⟨rfl, rfl⟩ := (BodyFrom.of_chars hbody.chars).unique (.of_chars hbody'.chars)
        (hcs.symm.trans hcs')
      exact hflags
    · intro hreadable
      exact hreadable body rest hcs hbody
  · have hnone : ∀ body rest, cs = body ++ '/' :: rest → ¬ RegularExpressionBody body :=
      fun body rest hcs hbody => h ⟨body, rest, hcs, hbody⟩
    refine iff_of_true (delimits_of_no_body hstart hnone) ?_
    exact fun body rest hcs hbody => absurd hbody (hnone body rest hcs)

end Literal

/-- The unknown flag of `/a/x` is read as one. -/
theorem unknown_flag_accepted : ¬ Delimits (fun _ => false) ['a', '/', 'x'] := by
  intro h
  obtain ⟨body, flags, rest, hdelimited, hflags, -⟩ :=
    (h [byte 'x'] []).mp ⟨[byte 'a'], 0, by rfl⟩
  obtain rfl : flags = ['x'] := utf8Text_injective hflags.symm
  exact absurd (hdelimited.letters 'x' (by simp)) (by decide)

/-- A body of a class and an escape, and a flag. -/
theorem regExpLiteral_delimits_example :
    Delimits (fun _ => false) ['[', '/', ']', '\\', '/', '/', 'g', ';'] := by
  refine (regExpLiteral_delimits_iff (by decide)).mpr fun body rest hcs hbody _ => ?_
  have hfrom : BodyFrom false ['[', '/', ']', '\\', '/'] :=
    .char (by decide) (by decide) nofun (.char (by decide) (by decide) (fun _ => rfl)
      (.char (by decide) (by decide) (fun _ => rfl) (.escape (by decide) .nil)))
  obtain ⟨rfl, rfl⟩ := hfrom.unique (.of_chars hbody.chars) hcs
  decide

end ArkTs2abc.Es2panda
