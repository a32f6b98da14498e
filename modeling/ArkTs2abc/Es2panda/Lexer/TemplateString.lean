import ArkTs2abc.Es2panda.Lexer.StringLiteral

/-!
# Template literals

Each chunk is scanned twice. The first scan has the escapes read; the second keeps the
text as it is, tells an escape by the character behind the backslash, and says where the
chunk ends. Expressions are parsed by a parameter.

## Main definitions

* `scanTemplateString`, `templateChunk`, `parseTemplateLiteral` — as in the lexer and the parser.
* `TemplateLiteral` — the literals of the grammar.
* `oddEscape` — the first escape that the second scan does not take for one.

## Main results

* `scansTemplate_iff` — the chunks on which both scans agree with the grammar, and the literals made of
  such chunks.
-/

namespace ArkTs2abc.Es2panda

open Unicode

namespace Lexer

def isOctalDigit (ch : ℕ) : Bool := '0'.toNat ≤ ch ∧ ch ≤ '7'.toNat

end Lexer

/-- `LexerTemplateString`; `last` is the iterator at `end`. -/
structure LexerTemplateString where
  str : List UInt8
  last : List UInt8
  scanExpression : Bool

namespace Lexer

/-- The loop of `ScanTemplateString`, for at most `n` rounds, and the iterator behind. -/
def scanTemplateStringLoop : ℕ → (iter str : List UInt8) → Option (LexerTemplateString × List UInt8)
  | 0, _, _ => none
  | n + 1, iter, str => do
    let (cp, next) ← decodeCP iter
    if cp = INVALID_CP then none
    else if cp = '`'.toNat then some (⟨str, iter, false⟩, iter)
    else if cp = LEX_CHAR_CR ∨ cp = LEX_CHAR_LF then
      let iter := if cp = LEX_CHAR_CR ∧ peek iter.tail = LEX_CHAR_LF then iter.tail else iter
      scanTemplateStringLoop n iter.tail (str ++ utf8Encode LEX_CHAR_LF)
    else if cp = '\\'.toNat then
      let nextCp := peek iter.tail
      if isOctalDigit nextCp ∧ peek iter.tail.tail ≠ '`'.toNat then none
      else if nextCp = '`'.toNat ∨ nextCp = '\\'.toNat then
        scanTemplateStringLoop n iter.tail.tail (str ++ utf8Encode cp ++ utf8Encode nextCp)
      else scanTemplateStringLoop n next (str ++ utf8Encode cp)
    else if cp = '$'.toNat then
      if peek iter.tail = '\x7b'.toNat then some (⟨str, iter, true⟩, iter.tail.tail)
      else scanTemplateStringLoop n iter.tail (str ++ utf8Encode cp)
    else scanTemplateStringLoop n next (str ++ utf8Encode cp)

def scanTemplateString (iter : List UInt8) : Option (LexerTemplateString × List UInt8) :=
  scanTemplateStringLoop (iter.length + 1) iter []

end Lexer

/-- A chunk as `ParseTemplateLiteral` scans it: the cooked string and where its scan stops, then the raw
string, and the iterator behind. -/
structure TemplateChunk where
  cooked : List UInt8
  cookedEnd : List UInt8
  raw : LexerTemplateString
  after : List UInt8

/-- The two scans of `ParseTemplateLiteral`. -/
def templateChunk (iter : List UInt8) : Option TemplateChunk := do
  let (cooked, cookedEnd) ← Lexer.scanString '`'.toNat iter false
  let (raw, after) ← Lexer.scanTemplateString iter
  some ⟨cooked, cookedEnd, raw, after⟩

structure TemplateElement where
  raw : List UInt8
  cooked : List UInt8

/-- The loop of `ParseTemplateLiteral`, for at most `n` chunks: the elements, the expressions, and the
iterator behind the closing backtick. `parseExpression` is an expression with its right brace. -/
def parseTemplateLiteral {E : Type} (parseExpression : List UInt8 → Option (E × List UInt8)) :
    ℕ → List UInt8 → Option (List TemplateElement × List E × List UInt8)
  | 0, _ => none
  | n + 1, iter => do
    let chunk ← templateChunk iter
    let element : TemplateElement := ⟨chunk.raw.str, chunk.cooked⟩
    if chunk.raw.scanExpression = false then some ([element], [], chunk.after.tail)
    else do
      let (expression, iter) ← parseExpression chunk.after
      let (quasis, expressions, rest) ← parseTemplateLiteral parseExpression n iter
      some (element :: quasis, expression :: expressions, rest)

/-! ## The grammar -/

/-- The values of the chunks of a template literal, from behind its backtick on, its expressions, and
what is left of the source. -/
inductive TemplateLiteral {E : Type} (parseExpression : List UInt8 → Option (E × List UInt8)) :
    List UInt8 → List (List UInt16) → List E → List UInt8 → Prop where
  | tail {text rest : List UInt8} {us : List UInt16} (htext : StringText '`' text us) :
      TemplateLiteral parseExpression (text ++ byte '`' :: rest) [us] [] rest
  | chunk {text after iter rest : List UInt8} {us : List UInt16} {uss : List (List UInt16)} {e : E}
      {es : List E} (htext : StringText '`' text us) (he : parseExpression after = some (e, iter)) :
      TemplateLiteral parseExpression iter uss es rest →
      TemplateLiteral parseExpression (text ++ byte '$' :: byte '\x7b' :: after) (us :: uss) (e :: es)
        rest

/-- Both scans of a chunk stop together, where it ends, and take just the chunks of the grammar, with
their values. -/
def ScansChunk (cs : List Char) : Prop :=
  ∀ us cookedEnd last, (∃ chunk, templateChunk (utf8Text cs) = some chunk ∧ Denotes chunk.cooked us ∧
      chunk.cookedEnd = cookedEnd ∧ chunk.raw.last = last) ↔
    cookedEnd = last ∧ Ends '`' last ∧ ∃ text, utf8Text cs = text ++ last ∧ StringText '`' text us

/-- What may be wrong with an escape: a zero before something other than a backtick, or a dollar sign
before a brace. -/
inductive OddEscape where
  | zero
  | dollar
  deriving DecidableEq

/-- The first such escape of a chunk. -/
def oddEscape : List Char → Option OddEscape
  | [] => none
  | c :: cs =>
    if c = '`' ∨ c = '$' ∧ cs.head? = some '\x7b' then none
    else if c = '\\' then
      match cs with
      | [] => none
      | d :: cs =>
        if d = '0' ∧ cs.head? ≠ some '`' then some .zero
        else if d = '$' ∧ cs.head? = some '\x7b' then some .dollar
        else oddEscape cs
    else oddEscape cs

/-! ## The second scan on the characters of a text -/

/-- Where the second scan stops. -/
def rawEnd : List Char → Option (List Char)
  | [] => none
  | c :: cs =>
    if c = '`' ∨ c = '$' ∧ cs.head? = some '\x7b' then some (c :: cs)
    else if c = '\\' then
      match cs with
      | [] => none
      | d :: cs =>
        if Lexer.isOctalDigit d.toNat ∧ cs.head? ≠ some '`' then none
        else if d = '`' ∨ d = '\\' then rawEnd cs
        else rawEnd (d :: cs)
    else rawEnd cs

/-- Characters that neither end a chunk nor start an escape. -/
def Plain (c : Char) : Prop := c ∉ ['`', '$', '\\']

instance (c : Char) : Decidable (Plain c) := inferInstanceAs (Decidable (c ∉ _))

theorem rawEnd_plain {c : Char} (hc : Plain c) (cs : List Char) : rawEnd (c :: cs) = rawEnd cs := by
  simp only [Plain, List.mem_cons, List.not_mem_nil, or_false, not_or] at hc
  rw [rawEnd.eq_def]
  simp [hc]

theorem oddEscape_plain {c : Char} (hc : Plain c) (cs : List Char) :
    oddEscape (c :: cs) = oddEscape cs := by
  simp only [Plain, List.mem_cons, List.not_mem_nil, or_false, not_or] at hc
  rw [oddEscape.eq_def]
  simp [hc]

namespace Lexer

theorem isOctalDigit_peek (c : Char) (cs : List Char) :
    isOctalDigit (peek (utf8Text (c :: cs))) = isOctalDigit c.toNat := by
  rcases Nat.lt_or_ge c.toNat 0x80 with hascii | hge
  · rw [peek_utf8Text_ascii hascii]
  · have hpeek := (le_peek_utf8Text hge cs).1
    have hwide (n : ℕ) (hn : 0x80 ≤ n) : isOctalDigit n = false := by
      simp [isOctalDigit]
      omega
    rw [hwide _ hge, hwide _ (by omega)]

theorem ascii_of_isOctalDigit {c : Char} (h : isOctalDigit c.toNat = true) : c.toNat < 0x80 := by
  simp [isOctalDigit] at h
  omega

/-- Where the second scan is at its end: the iterators of `end` and behind, and what comes next. -/
def rawResult (rest : List Char) : List UInt8 × Bool × List UInt8 :=
  (utf8Text rest, rest.head? = some '$', utf8Text (if rest.head? = some '$' then rest.drop 2 else rest))

def rawOf (r : LexerTemplateString × List UInt8) : List UInt8 × Bool × List UInt8 :=
  (r.1.last, r.1.scanExpression, r.2)

/-- The second scan of a text stops where its characters say. -/
theorem scanTemplateStringLoop_utf8Text (cs : List Char) {n : ℕ} (hn : cs.length < n) (str : List UInt8) :
    (scanTemplateStringLoop n (utf8Text cs) str).map rawOf = (rawEnd cs).map rawResult := by
  induction n generalizing cs str with
  | zero => exact absurd hn (Nat.not_lt_zero _)
  | succ n ih =>
    rcases cs with _ | ⟨c, cs⟩
    · rfl
    have hn' : cs.length < n := by simpa using hn
    have hchar (d : Char) : c.toNat = d.toNat ↔ c = d := Char.toNat_inj
    have hcr : c.toNat = LEX_CHAR_CR ↔ c = '\r' := hchar '\r'
    have hlf : c.toNat = LEX_CHAR_LF ↔ c = '\n' := hchar '\n'
    have hinvalid : c.toNat ≠ INVALID_CP := by
      have := char_lt c
      rw [INVALID_CP]
      omega
    rw [scanTemplateStringLoop, decodeCP_utf8Text_cons]
    simp only [Option.bind_eq_bind, Option.bind_some, if_neg hinvalid, hcr, hlf, hchar]
    by_cases hend : c = '`'
    · subst hend
      rw [rawEnd.eq_def]
      simp [rawOf, rawResult]
    rw [if_neg hend]
    by_cases hbreak : c = '\r' ∨ c = '\n'
    · rw [if_pos hbreak]
      have hline := peek_utf8Text_eq_iff (d := '\n') (by decide) cs
      have hlf' : LEX_CHAR_LF = '\n'.toNat := rfl
      have hplain : Plain c := by rcases hbreak with rfl | rfl <;> decide
      have hascii : c.toNat < 0x80 := by rcases hbreak with rfl | rfl <;> decide
      rw [rawEnd_plain hplain, tail_utf8Text_ascii hascii, hlf']
      simp only [hline]
      by_cases hpair : c = '\r' ∧ cs.head? = some '\n'
      · obtain ⟨ds, rfl⟩ := List.head?_eq_some_iff.mp hpair.2
        rw [if_pos hpair, tail_utf8Text_ascii (by decide), rawEnd_plain (by decide)]
        exact ih ds (by simp at hn'; omega) _
      · rw [if_neg hpair, tail_utf8Text_ascii hascii]
        exact ih cs hn' _
    rw [if_neg hbreak]
    by_cases hescape : c = '\\'
    · subst hescape
      rw [if_pos rfl, tail_utf8Text_ascii (by decide), rawEnd.eq_def]
      rcases cs with _ | ⟨d, cs⟩
      · obtain ⟨n, rfl⟩ : ∃ k, n = k + 1 := ⟨n - 1, by simp at hn'; omega⟩
        rfl
      have hlt : cs.length < n := by simp at hn'; omega
      have hspecial : ¬ ('\\' = '`' ∨ '\\' = '$' ∧ (d :: cs).head? = some '\x7b') := by simp
      have htick := peek_utf8Text_eq_iff (d := '`') (by decide) (d :: cs)
      have hbackslash := peek_utf8Text_eq_iff (d := '\\') (by decide) (d :: cs)
      rw [List.head?_cons, Option.some.injEq] at htick hbackslash
      simp only [if_neg hspecial, if_true, isOctalDigit_peek, htick, hbackslash]
      have hoctal : (isOctalDigit d.toNat = true ∧ peek (utf8Text (d :: cs)).tail ≠ '`'.toNat) ↔
          (isOctalDigit d.toNat = true ∧ cs.head? ≠ some '`') := by
        refine and_congr_right fun hd => not_congr ?_
        rw [tail_utf8Text_ascii (ascii_of_isOctalDigit hd)]
        exact peek_utf8Text_eq_iff (by decide) cs
      simp only [hoctal]
      split_ifs with hzero hskip
      · rfl
      · have hascii : d.toNat < 0x80 := by rcases hskip with rfl | rfl <;> decide
        rw [tail_utf8Text_ascii hascii]
        exact ih cs hlt _
      · exact ih (d :: cs) hn' _
    rw [if_neg hescape]
    by_cases hdollar : c = '$'
    · subst hdollar
      have hbrace := peek_utf8Text_eq_iff (d := '\x7b') (by decide) cs
      rw [if_pos rfl, tail_utf8Text_ascii (by decide)]
      simp only [hbrace]
      rw [rawEnd.eq_def]
      by_cases hhead : cs.head? = some '\x7b'
      · obtain ⟨ds, rfl⟩ := List.head?_eq_some_iff.mp hhead
        rw [if_pos hhead, tail_utf8Text_ascii (by decide)]
        simp [rawOf, rawResult]
      · rw [if_neg hhead]
        simp only [hhead, and_false, or_false, hend, if_false]
        exact ih cs hn' _
    · have hplain : Plain c := by simp [Plain, hend, hescape, hdollar]
      rw [if_neg hdollar, rawEnd_plain hplain]
      exact ih cs hn' _

end Lexer

/-! ## The two scans together -/

theorem plain_of_isHexDigit {c : Char} (h : Lexer.isHexDigit c.toNat = true) : Plain c := by
  simp only [Plain, List.mem_cons, List.not_mem_nil, or_false]
  rintro (rfl | rfl | rfl)
  all_goals exact absurd h (by decide)

variable {cs : List Char}

theorem rawEnd_append (h : ∀ c ∈ cs, Plain c) (rest : List Char) :
    rawEnd (cs ++ rest) = rawEnd rest := by
  induction cs with
  | nil => rfl
  | cons c cs ih =>
    obtain ⟨hc, hcs⟩ := List.forall_mem_cons.mp h
    rw [List.cons_append, rawEnd_plain hc, ih hcs]

theorem oddEscape_append (h : ∀ c ∈ cs, Plain c) (rest : List Char) :
    oddEscape (cs ++ rest) = oddEscape rest := by
  induction cs with
  | nil => rfl
  | cons c cs ih =>
    obtain ⟨hc, hcs⟩ := List.forall_mem_cons.mp h
    rw [List.cons_append, oddEscape_plain hc, ih hcs]

/-- What an escape may have behind its first character: the line feed that ends a line with it, or digits
and braces. -/
def EscapeTail (d : Char) (ds rest : List Char) : Prop :=
  (d = '\r' ∧ (ds = ['\n'] ∨ ds = [] ∧ rest.head? ≠ some '\n')) ∨
    (d ≠ '\r' ∧ (∀ c ∈ ds, Lexer.isHexDigit c.toNat ∨ c = '\x7b' ∨ c = '}') ∧ (d ∈ ['x', 'u'] ∨ ds = []))

variable {cps : List ℕ} {empty : Bool} {rest : List Char}

/-- The characters of an escape. The only octal digit is a zero. -/
theorem scanEscape_shape (h : Lexer.scanEscape cs = some (cps, empty, rest)) :
    ∃ d ds, cs = d :: ds ++ rest ∧
      EscapeTail d ds rest ∧ (Lexer.isOctalDigit d.toNat = true → d = '0' ∧ ds = []) := by
  rcases cs with _ | ⟨c, cs⟩
  · cases h
  have hsingle (hreturn : c ≠ '\r') (hrest : rest = cs)
      (hoctal : Lexer.isOctalDigit c.toNat = true → c = '0') :
      ∃ d ds, c :: cs = d :: ds ++ rest ∧ EscapeTail d ds rest ∧
        (Lexer.isOctalDigit d.toNat = true → d = '0' ∧ ds = []) :=
    ⟨c, [], by rw [hrest]; rfl, .inr ⟨hreturn, nofun, .inr rfl⟩, fun hd => ⟨hoctal hd, rfl⟩⟩
  rw [Lexer.scanEscape] at h
  split at h
  next hreturn =>
    subst hreturn
    simp only [Option.some.injEq, Prod.mk.injEq] at h
    by_cases hhead : cs.head? = some '\n'
    · obtain ⟨ds, rfl⟩ := List.head?_eq_some_iff.mp hhead
      obtain rfl : ds = rest := by simpa using h.2.2
      exact ⟨'\r', ['\n'], rfl, .inl ⟨rfl, .inl rfl⟩, fun hd => absurd hd (by decide)⟩
    · rw [if_neg hhead] at h
      obtain ⟨-, -, rfl⟩ := h
      exact ⟨'\r', [], rfl, .inl ⟨rfl, .inr ⟨rfl, hhead⟩⟩, fun hd => absurd hd (by decide)⟩
  next hreturn =>
  split at h
  next hbreak =>
    simp only [Option.some.injEq, Prod.mk.injEq] at h
    refine hsingle hreturn h.2.2.symm ?_
    rcases hbreak with rfl | rfl | rfl <;> decide
  next hbreak =>
  split at h
  next cp hcp =>
    simp only [Option.some.injEq, Prod.mk.injEq] at h
    refine hsingle hreturn h.2.2.symm fun hoctal => absurd hoctal ?_
    obtain ⟨-, -, v, -, hmem⟩ := Lexer.singleEscape_sound hcp
    simp only [List.mem_cons, List.not_mem_nil, or_false, Prod.mk.injEq] at hmem
    rcases hmem with h | h | h | h | h | h
    all_goals
      rw [h.1]
      decide
  next hcp =>
  split at h
  next hhex =>
    subst hhex
    rw [Option.map_eq_some_iff] at h
    obtain ⟨⟨cp, rest'⟩, hscan, heq⟩ := h
    simp only [Prod.mk.injEq] at heq
    obtain ⟨rfl, rfl, rfl⟩ := heq
    obtain ⟨digits, rfl, hdigits, -, -⟩ := Lexer.scanHexDigits_sound hscan
    exact ⟨'x', digits, rfl, .inr ⟨hreturn, fun c hc => .inl (hdigits c hc), .inl (by decide)⟩,
      fun hd => absurd hd (by decide)⟩
  next hhex =>
  split at h
  next hunicode =>
    subst hunicode
    rw [Option.map_eq_some_iff] at h
    obtain ⟨⟨cp, empty', rest'⟩, hscan, heq⟩ := h
    simp only [Prod.mk.injEq] at heq
    obtain ⟨rfl, rfl, rfl⟩ := heq
    obtain ⟨ds, rfl, hds⟩ : ∃ ds, cs = ds ++ rest' ∧
        ∀ c ∈ ds, Lexer.isHexDigit c.toNat ∨ c = '\x7b' ∨ c = '}' := by
      unfold Lexer.scanUnicode at hscan
      split_ifs at hscan with hhead
      · obtain ⟨es, rfl⟩ := List.head?_eq_some_iff.mp hhead
        obtain ⟨⟨cp', rest''⟩, hbraces, heq⟩ := Option.map_eq_some_iff.mp hscan
        simp only [Prod.mk.injEq] at heq
        obtain ⟨rfl, -, rfl⟩ := heq
        obtain ⟨digits, hes, hdigits, -, -⟩ := Lexer.scanBraces_sound (by decide) hbraces
        obtain rfl : es = digits ++ '}' :: rest'' := hes
        refine ⟨'\x7b' :: digits ++ ['}'], by simp, ?_⟩
        intro c hc
        simp only [List.cons_append, List.mem_cons, List.mem_append, List.not_mem_nil, or_false] at hc
        rcases hc with hc | hc | hc
        · exact .inr (.inl hc)
        · exact .inl (hdigits c hc)
        · exact .inr (.inr hc)
      · obtain ⟨⟨cp', rest''⟩, hhex, heq⟩ := Option.map_eq_some_iff.mp hscan
        simp only [Prod.mk.injEq] at heq
        obtain ⟨rfl, -, rfl⟩ := heq
        obtain ⟨digits, rfl, hdigits, -, -⟩ := Lexer.scanHexDigits_sound hhex
        exact ⟨digits, rfl, fun c hc => .inl (hdigits c hc)⟩
    exact ⟨'u', ds, rfl, .inr ⟨hreturn, hds, .inl (by decide)⟩, fun hd => absurd hd (by decide)⟩
  next hunicode =>
  split at h
  next hzero =>
    simp only [Option.some.injEq, Prod.mk.injEq] at h
    exact hsingle hreturn h.2.2.symm fun _ => hzero.1
  next hzero =>
  split at h
  next => cases h
  next hdigit =>
    simp only [Option.some.injEq, Prod.mk.injEq] at h
    refine hsingle hreturn h.2.2.symm fun hoctal => absurd ?_ hdigit
    simp only [Lexer.isOctalDigit, Lexer.isDecimalDigit, decide_eq_true_eq] at hoctal ⊢
    have hseven : '7'.toNat ≤ '9'.toNat := by decide
    omega

theorem scanEscape_characters (h : Lexer.scanEscape cs = some (cps, empty, rest)) :
    ∃ d ds, cs = d :: ds ++ rest ∧
      (∀ c ∈ ds, Plain c) ∧ (Plain d ∨ ds = []) ∧
      (Lexer.isOctalDigit d.toNat = true → d = '0' ∧ ds = []) := by
  obtain ⟨d, ds, hcs, htail, hoctal⟩ := scanEscape_shape h
  rcases htail with ⟨rfl, rfl | ⟨rfl, -⟩⟩ | ⟨-, hds, hd⟩
  · exact ⟨_, _, hcs, by decide, .inl (by decide), hoctal⟩
  · exact ⟨_, _, hcs, nofun, .inr rfl, hoctal⟩
  · refine ⟨d, ds, hcs, fun c hc => ?_, hd.imp_left fun hd => ?_, hoctal⟩
    · rcases hds c hc with hdigit | rfl | rfl
      · exact plain_of_isHexDigit hdigit
      · decide
      · decide
    · rcases List.mem_pair.mp hd with rfl | rfl <;> decide

/-- What the second scan makes of a chunk that the first one takes, with what is left at its end. -/
def Verdict (cs rest : List Char) : Prop :=
  match oddEscape cs with
  | none => rawEnd cs = some rest
  | some .zero => rawEnd cs = none
  | some .dollar => ∃ stop, rawEnd cs = some stop ∧ rest.length < stop.length

theorem Verdict.of_eq {ds : List Char} (h : Verdict ds rest) (hodd : oddEscape cs = oddEscape ds)
    (hraw : rawEnd cs = rawEnd ds) : Verdict cs rest := by
  unfold Verdict at h ⊢
  rwa [hodd, hraw]

/-- An escape is read by the second scan too, unless it is an odd one. -/
theorem Verdict.escape {ds : List Char} (hscan : Lexer.scanEscape cs = some (cps, empty, ds))
    (h : Verdict ds rest) (hlength : rest.length ≤ ds.length) : Verdict ('\\' :: cs) rest := by
  obtain ⟨d, es, rfl, hes, hspecial, hoctal⟩ := scanEscape_characters hscan
  rw [List.cons_append]
  have hodd : oddEscape ('\\' :: d :: (es ++ ds)) =
      if d = '0' ∧ (es ++ ds).head? ≠ some '`' then some .zero
      else if d = '$' ∧ (es ++ ds).head? = some '\x7b' then some .dollar
      else oddEscape (es ++ ds) := by
    rw [oddEscape.eq_def]
    simp
  have hraw : rawEnd ('\\' :: d :: (es ++ ds)) =
      if Lexer.isOctalDigit d.toNat ∧ (es ++ ds).head? ≠ some '`' then none
      else if d = '`' ∨ d = '\\' then rawEnd (es ++ ds) else rawEnd (d :: (es ++ ds)) := by
    rw [rawEnd.eq_def]
    simp
  by_cases hd : Lexer.isOctalDigit d.toNat = true
  · obtain ⟨rfl, rfl⟩ := hoctal hd
    rw [List.nil_append] at hodd hraw ⊢
    by_cases hhead : ds.head? = some '`'
    · refine h.of_eq ?_ ?_
      · simpa [hhead] using hodd
      · simpa [hhead, rawEnd_plain (by decide : Plain '0')] using hraw
    · unfold Verdict
      rw [hodd, if_pos ⟨rfl, hhead⟩, hraw, if_pos ⟨hd, hhead⟩]
  have hzero : d ≠ '0' := by
    rintro rfl
    exact hd (by decide)
  rw [if_neg fun h => hzero h.1] at hodd
  rw [if_neg fun h => hd h.1] at hraw
  by_cases hplain : Plain d
  · have hne := hplain
    simp only [Plain, List.mem_cons, List.not_mem_nil, or_false, not_or] at hne
    refine h.of_eq ?_ ?_
    · rw [hodd, if_neg fun h => hne.2.1 h.1, oddEscape_append hes]
    · rw [hraw, if_neg (not_or.mpr ⟨hne.1, hne.2.2⟩), rawEnd_plain hplain, rawEnd_append hes]
  obtain rfl := hspecial.resolve_left hplain
  rw [List.nil_append] at hodd hraw ⊢
  by_cases hdollar : d = '$'
  · subst hdollar
    rw [if_neg (by decide)] at hraw
    have hstop : rawEnd ('$' :: ds) =
        if ds.head? = some '\x7b' then some ('$' :: ds) else rawEnd ds := by
      rw [rawEnd.eq_def]
      simp
    by_cases hhead : ds.head? = some '\x7b'
    · unfold Verdict
      rw [hodd, if_pos ⟨rfl, hhead⟩]
      exact ⟨'$' :: ds, by rw [hraw, hstop, if_pos hhead], by simp; omega⟩
    · refine h.of_eq ?_ ?_
      · rw [hodd, if_neg fun h => hhead h.2]
      · rw [hraw, hstop, if_neg hhead]
  · have hskip : d = '`' ∨ d = '\\' := by
      simp only [Plain, List.mem_cons, List.not_mem_nil, or_false, not_not] at hplain
      rcases hplain with h | h | h
      · exact .inl h
      · exact absurd h hdollar
      · exact .inr h
    refine h.of_eq ?_ ?_
    · rw [hodd, if_neg fun h => hdollar h.1]
    · rw [hraw, if_pos hskip]

/-- The second scan of a chunk that the first one takes. -/
theorem verdict_of_scanText {n : ℕ} (h : Lexer.scanText '`' n cs = some (cps, empty, rest)) :
    Verdict cs rest := by
  induction n generalizing cs cps empty with
  | zero => cases h
  | succ n ih =>
    rcases cs with _ | ⟨c, cs⟩
    · cases h
    rw [Lexer.scanText] at h
    split at h
    next hbreak =>
      rw [if_pos rfl, Option.map_eq_some_iff] at h
      obtain ⟨⟨cps', empty', rest'⟩, hscan, heq⟩ := h
      cases heq
      have hplain : Plain c := by rcases hbreak with rfl | rfl <;> decide
      have hverdict := ih hscan
      by_cases hpair : c = '\r' ∧ cs.head? = some '\n'
      · obtain ⟨ds, rfl⟩ := List.head?_eq_some_iff.mp hpair.2
        rw [if_pos hpair] at hverdict
        have hline : Plain '\n' := by decide
        exact hverdict.of_eq ((oddEscape_plain hplain _).trans (oddEscape_plain hline ds))
          ((rawEnd_plain hplain _).trans (rawEnd_plain hline ds))
      · rw [if_neg hpair] at hverdict
        exact hverdict.of_eq (oddEscape_plain hplain cs) (rawEnd_plain hplain cs)
    next hbreak =>
    split at h
    next hescape =>
      subst hescape
      rw [Option.bind_eq_bind, Option.bind_eq_some_iff] at h
      obtain ⟨⟨cps₁, empty₁, ds⟩, hesc, h⟩ := h
      simp only [Option.bind_eq_some_iff] at h
      obtain ⟨⟨cps₂, empty₂, rest₂⟩, hscan, h⟩ := h
      simp only [Option.some.injEq, Prod.mk.injEq] at h
      obtain ⟨-, -, rfl⟩ := h
      obtain ⟨text, hds, -, -, -⟩ := Lexer.scanText_sound (by decide) hscan
      have hds : ds = text ++ rest₂ := hds
      exact (ih hscan).escape hesc (by rw [hds]; simp)
    next hescape =>
    split at h
    next hend =>
      simp only [Option.some.injEq, Prod.mk.injEq] at h
      obtain ⟨-, -, rfl⟩ := h
      have hstop : c = '`' ∨ c = '$' ∧ cs.head? = some '\x7b' := by simpa using hend
      unfold Verdict
      rw [oddEscape.eq_def, rawEnd.eq_def]
      simp [hstop]
    next hend =>
      rw [Option.map_eq_some_iff] at h
      obtain ⟨⟨cps', empty', rest'⟩, hscan, heq⟩ := h
      simp only [Prod.mk.injEq] at heq
      obtain ⟨-, -, rfl⟩ := heq
      have hstop : ¬ (c = '`' ∨ c = '$' ∧ cs.head? = some '\x7b') := by simpa using hend
      refine (ih hscan).of_eq ?_ ?_
      · rw [oddEscape.eq_def]
        simp [hstop, hescape]
      · rw [rawEnd.eq_def]
        simp [hstop, hescape]

/-! ## Chunks and templates -/

/-- A chunk of the grammar has no odd escape, and the first odd escape of one that is a chunk but for
braces without a digit is a zero. -/
def Unaffected (cs : List Char) : Prop :=
  (∀ text last us, utf8Text cs = text ++ last → StringText '`' text us → Ends '`' last →
    oddEscape cs = none) ∧
  (∀ text last, utf8Text cs = text ++ last → WithEmptyBraces '`' text → Ends '`' last →
    oddEscape cs = some .zero)

theorem scanTemplateString_utf8Text (cs : List Char) :
    (Lexer.scanTemplateString (utf8Text cs)).map Lexer.rawOf = (rawEnd cs).map Lexer.rawResult :=
  Lexer.scanTemplateStringLoop_utf8Text cs (Nat.lt_succ_of_le (Lexer.length_le_utf8Text cs)) []

theorem scanString_template (cs : List Char) : Lexer.scanString '`'.toNat (utf8Text cs) false =
    (Lexer.scanText '`' ((utf8Text cs).length + 1) cs).map fun (cps, _, rest) =>
      (cps.flatMap utf8Encode, utf8Text rest) :=
  Lexer.scanString_utf8Text (by decide) cs false

theorem templateChunk_eq_some_iff (cs : List Char) (bytes cookedEnd last : List UInt8) :
    (∃ chunk, templateChunk (utf8Text cs) = some chunk ∧ chunk.cooked = bytes ∧
        chunk.cookedEnd = cookedEnd ∧ chunk.raw.last = last) ↔
      Lexer.scanString '`'.toNat (utf8Text cs) false = some (bytes, cookedEnd) ∧
        ∃ stop, rawEnd cs = some stop ∧ utf8Text stop = last := by
  have hraw := scanTemplateString_utf8Text cs
  constructor
  · rintro ⟨chunk, hchunk, rfl, rfl, rfl⟩
    rw [templateChunk, Option.bind_eq_bind, Option.bind_eq_some_iff] at hchunk
    obtain ⟨⟨cooked, cookedEnd⟩, hcooked, hchunk⟩ := hchunk
    obtain ⟨⟨raw, after⟩, hscan, heq⟩ := Option.bind_eq_some_iff.mp hchunk
    cases heq
    rw [hscan, Option.map_some, eq_comm, Option.map_eq_some_iff] at hraw
    obtain ⟨stop, hstop, heq⟩ := hraw
    exact ⟨hcooked, stop, hstop, congrArg Prod.fst heq⟩
  · rintro ⟨hcooked, stop, hstop, rfl⟩
    rw [hstop, Option.map_some, Option.map_eq_some_iff] at hraw
    obtain ⟨⟨raw, after⟩, hscan, heq⟩ := hraw
    refine ⟨⟨bytes, cookedEnd, raw, after⟩, ?_, rfl, rfl, congrArg Prod.fst heq⟩
    rw [templateChunk, hcooked, hscan]
    rfl

theorem scansChunk_iff_unaffected (cs : List Char) : ScansChunk cs ↔ Unaffected cs := by
  have hquote : '`' ∈ ['"', '\'', '`'] := by decide
  have hcode := scanString_template cs
  have hlength {text last : List UInt8} (h : utf8Text cs = text ++ last) :
      text.length < (utf8Text cs).length + 1 := by
    rw [h, List.length_append]
    omega
  have htext {text last : List UInt8} {us : List UInt16} (hcs : utf8Text cs = text ++ last)
      (h : StringText '`' text us) (hends : Ends '`' last) :=
    Lexer.scanText_of_stringText hquote h hends hcs (hlength hcs)
  have hbraces {text last : List UInt8} (hcs : utf8Text cs = text ++ last)
      (h : WithEmptyBraces '`' text) (hends : Ends '`' last) :=
    Lexer.scanText_of_emptyBraces hquote h hends hcs (hlength hcs)
  -- a chunk, with its first scan made explicit
  have hscans (us : List UInt16) (cookedEnd last : List UInt8) :
      (∃ chunk, templateChunk (utf8Text cs) = some chunk ∧ Denotes chunk.cooked us ∧
        chunk.cookedEnd = cookedEnd ∧ chunk.raw.last = last) ↔
      ∃ bytes, Lexer.scanString '`'.toNat (utf8Text cs) false = some (bytes, cookedEnd) ∧
        Denotes bytes us ∧ ∃ stop, rawEnd cs = some stop ∧ utf8Text stop = last := by
    constructor
    · rintro ⟨chunk, hchunk, hdenotes, hend, hlast⟩
      obtain ⟨hcooked, hstop⟩ := (templateChunk_eq_some_iff cs _ _ _).mp ⟨chunk, hchunk, rfl, hend, hlast⟩
      exact ⟨_, hcooked, hdenotes, hstop⟩
    · rintro ⟨bytes, hcooked, hdenotes, hstop⟩
      obtain ⟨chunk, hchunk, rfl, hend, hlast⟩ := (templateChunk_eq_some_iff cs _ _ _).mpr ⟨hcooked, hstop⟩
      exact ⟨chunk, hchunk, hdenotes, hend, hlast⟩
  unfold ScansChunk
  simp only [hscans]
  rcases hscan : Lexer.scanText '`' ((utf8Text cs).length + 1) cs with _ | ⟨cps, empty, rest⟩
  · -- the first scan fails, and there is no chunk
    rw [hscan] at hcode
    constructor
    · intro _
      refine ⟨fun text last us hcs h hends => ?_, fun text last hcs h hends => ?_⟩
      · obtain ⟨_, _, hread, -⟩ := htext hcs h hends
        cases hscan.symm.trans hread
      · obtain ⟨_, _, _, hread, -⟩ := hbraces hcs h hends
        cases hscan.symm.trans hread
    · intro _ us cookedEnd last
      constructor
      · rintro ⟨bytes, hcooked, -⟩
        cases hcode.symm.trans hcooked
      · rintro ⟨-, hends, text, hcs, h⟩
        obtain ⟨_, _, hread, -⟩ := htext hcs h hends
        cases hscan.symm.trans hread
  obtain ⟨text, hcs, hends, hcps, hgrammar⟩ := Lexer.scanText_sound hquote hscan
  have hverdict := verdict_of_scanText hscan
  have hbytes : utf8Text cs = utf8Text text ++ utf8Text rest := by rw [hcs, utf8Text_append]
  rw [hscan, Option.map_some] at hcode
  simp only [hcode, Option.some.injEq, Prod.mk.injEq]
  cases empty with
  | true =>
    have hno (us : List UInt16) (last : List UInt8) :
        ¬ (Ends '`' last ∧ ∃ text, utf8Text cs = text ++ last ∧ StringText '`' text us) := by
      rintro ⟨hends', text', hcs', h⟩
      obtain ⟨_, _, hread, -⟩ := htext hcs' h hends'
      cases hscan.symm.trans hread
    constructor
    · intro h
      have hnone : rawEnd cs = none := by
        by_contra hsome
        obtain ⟨stop, hstop⟩ := Option.ne_none_iff_exists'.mp hsome
        have := (h _ _ _).mp ⟨_, ⟨rfl, rfl⟩, denotes_encode hcps, stop, hstop, rfl⟩
        exact hno _ _ this.2
      refine ⟨fun text' last us hcs' h hends' => ?_, fun _ _ _ _ _ => ?_⟩
      · exact absurd ⟨hends', text', hcs', h⟩ (hno us last)
      · unfold Verdict at hverdict
        rcases hodd : oddEscape cs with _ | _ | _
        · simp [hodd, hnone] at hverdict
        · rfl
        · simp [hodd, hnone] at hverdict
    · intro h us cookedEnd last
      have hzero := h.2 _ _ hbytes hgrammar hends
      have hnone : rawEnd cs = none := by simpa [Verdict, hzero] using hverdict
      simp only [hnone, reduceCtorEq, false_and, exists_false, and_false, false_iff]
      exact fun h => hno us last h.2
  | false =>
    constructor
    · intro h
      refine ⟨fun _ _ _ _ _ _ => ?_, fun text' last hcs' h hends' => ?_⟩
      · obtain ⟨bytes, ⟨-, -⟩, -, stop, hstop, hlast⟩ :=
          (h _ (utf8Text rest) (utf8Text rest)).mpr ⟨rfl, hends, _, hbytes, hgrammar⟩
        obtain rfl := utf8Text_injective hlast
        unfold Verdict at hverdict
        rcases hodd : oddEscape cs with _ | _ | _
        · rfl
        · simp [hodd, hstop] at hverdict
        · simp [hodd, hstop] at hverdict
      · obtain ⟨_, _, _, hread, -⟩ := hbraces hcs' h hends'
        cases hscan.symm.trans hread
    · intro h us cookedEnd last
      have hnone := h.1 _ _ _ hbytes hgrammar hends
      have hstop : rawEnd cs = some rest := by simpa [Verdict, hnone] using hverdict
      constructor
      · rintro ⟨bytes, ⟨rfl, rfl⟩, hdenotes, stop, hstop', rfl⟩
        obtain rfl := Option.some.inj (hstop.symm.trans hstop')
        obtain rfl := hdenotes.unique (denotes_encode hcps)
        exact ⟨rfl, hends, _, hbytes, hgrammar⟩
      · rintro ⟨rfl, hends', text', hcs', h'⟩
        obtain ⟨_, _, hread, rfl, rfl⟩ := htext hcs' h' hends'
        cases hscan.symm.trans hread
        exact ⟨_, ⟨rfl, rfl⟩, denotes_encode hcps, rest, hstop, rfl⟩

section Template

variable {E : Type} (parseExpression : List UInt8 → Option (E × List UInt8))

/-- The places where a chunk of a template literal starts. -/
inductive ChunkStart : List Char → List Char → Prop where
  | first (cs : List Char) : ChunkStart cs cs
  | next {cs ds es : List Char} {text after : List UInt8} {us : List UInt16} {e : E}
      (hcs : utf8Text cs = text ++ byte '$' :: byte '\x7b' :: after) (htext : StringText '`' text us)
      (he : parseExpression after = some (e, utf8Text ds)) : ChunkStart ds es → ChunkStart cs es

/-- The parser makes a template literal of what is left of the source, with the strings `uss`. -/
def ParsesTemplate (n : ℕ) (iter : List UInt8) (uss : List (List UInt16)) (es : List E)
    (rest : List UInt8) : Prop :=
  ∃ quasis, parseTemplateLiteral parseExpression n iter = some (quasis, es, rest) ∧
    List.Forall₂ (fun element us => Denotes element.cooked us) quasis uss

section

variable {cs : List Char} {chunk : TemplateChunk} (h : templateChunk (utf8Text cs) = some chunk)
include h

theorem templateChunk_after : ∃ stop, rawEnd cs = some stop ∧
      (chunk.raw.last, chunk.raw.scanExpression, chunk.after) = Lexer.rawResult stop := by
  have hraw := scanTemplateString_utf8Text cs
  rw [templateChunk, Option.bind_eq_bind, Option.bind_eq_some_iff] at h
  obtain ⟨⟨cooked, cookedEnd⟩, -, h⟩ := h
  obtain ⟨⟨raw, after⟩, hscan, heq⟩ := Option.bind_eq_some_iff.mp h
  cases heq
  rw [hscan, Option.map_some, eq_comm, Option.map_eq_some_iff] at hraw
  obtain ⟨stop, hstop, heq⟩ := hraw
  exact ⟨stop, hstop, heq.symm⟩

theorem templateChunk_ends (hends : Ends '`' chunk.raw.last) :
    (∃ ds, chunk.raw.last = byte '`' :: utf8Text ds ∧ chunk.raw.scanExpression = false ∧
      chunk.after.tail = utf8Text ds) ∨
    ∃ ds, chunk.raw.last = byte '$' :: byte '\x7b' :: utf8Text ds ∧ chunk.raw.scanExpression = true ∧
      chunk.after = utf8Text ds := by
  obtain ⟨stop, -, hresult⟩ := templateChunk_after h
  simp only [Lexer.rawResult, Prod.mk.injEq] at hresult
  obtain ⟨hlast, hexpression, hafter⟩ := hresult
  rw [hlast] at hends
  obtain ⟨tail, hstop | ⟨-, hstop⟩⟩ := hends
  · obtain ⟨ds, rfl, rfl⟩ := Lexer.utf8Text_eq_cons (by decide) hstop
    refine .inl ⟨ds, by rw [hlast, hstop], by simpa using hexpression, ?_⟩
    rw [hafter]
    simp [utf8Text_cons_ascii]
  · obtain ⟨stop', rfl, hstop'⟩ := Lexer.utf8Text_eq_cons (by decide) hstop
    obtain ⟨ds, rfl, rfl⟩ := Lexer.utf8Text_eq_cons (by decide) hstop'
    exact .inr ⟨ds, by rw [hlast, hstop], by simpa using hexpression, by simpa using hafter⟩

end

/-- With chunks that both scans read as the grammar does, the parser takes just the template literals. -/
theorem parsesTemplate_iff_of_unaffected
    (hexpression : ∀ cs e iter, parseExpression (utf8Text cs) = some (e, iter) →
      ∃ text rest, cs = text ++ rest ∧ iter = utf8Text rest)
    {n : ℕ} {cs : List Char} (hn : (utf8Text cs).length < n)
    (h : ∀ ds, ChunkStart parseExpression cs ds → Unaffected ds) (uss : List (List UInt16))
    (es : List E) (rest : List UInt8) :
    ParsesTemplate parseExpression n (utf8Text cs) uss es rest ↔
      TemplateLiteral parseExpression (utf8Text cs) uss es rest := by
  induction n generalizing cs uss es with
  | zero => exact absurd hn (Nat.not_lt_zero _)
  | succ n ih =>
    have hchunk := (scansChunk_iff_unaffected cs).mpr (h cs (.first cs))
    -- what is behind an expression
    have hnext {ds : List Char} {text iter : List UInt8} {us : List UInt16} {e : E}
        (hcs : utf8Text cs = text ++ byte '$' :: byte '\x7b' :: utf8Text ds)
        (htext : StringText '`' text us) (he : parseExpression (utf8Text ds) = some (e, iter)) :
        ∃ ds', iter = utf8Text ds' ∧ ∀ uss es,
          ParsesTemplate parseExpression n (utf8Text ds') uss es rest ↔
            TemplateLiteral parseExpression (utf8Text ds') uss es rest := by
      obtain ⟨before, ds', rfl, rfl⟩ := hexpression ds e iter he
      refine ⟨ds', rfl, fun uss es => ih ?_ (fun es hes => h es (.next hcs htext he hes)) uss es⟩
      have hlength := congrArg List.length hcs
      simp only [List.length_append, List.length_cons, utf8Text_append] at hlength
      omega
    constructor
    · rintro ⟨quasis, hparse, hquasis⟩
      rw [parseTemplateLiteral, Option.bind_eq_bind, Option.bind_eq_some_iff] at hparse
      obtain ⟨chunk, hscan, hparse⟩ := hparse
      have hstep {us : List UInt16} (hdenotes : Denotes chunk.cooked us) :=
        (hchunk us _ _).mp ⟨chunk, hscan, hdenotes, rfl, rfl⟩
      by_cases hexpr : chunk.raw.scanExpression = false
      · rw [if_pos hexpr] at hparse
        cases hparse
        obtain ⟨us, hdenotes, rfl⟩ : ∃ us, Denotes chunk.cooked us ∧ uss = [us] := by
          cases hquasis with
          | cons hdenotes htail =>
            cases htail
            exact ⟨_, hdenotes, rfl⟩
        obtain ⟨-, hends, text, hcs, htext⟩ := hstep hdenotes
        obtain ⟨ds, hlast, -, hafter⟩ | ⟨ds, -, hexpr', -⟩ := templateChunk_ends hscan hends
        · rw [hcs, hlast, hafter]
          exact .tail htext
        · cases hexpr.symm.trans hexpr'
      · rw [if_neg hexpr] at hparse
        obtain ⟨⟨e, iter⟩, he, hparse⟩ := Option.bind_eq_some_iff.mp hparse
        obtain ⟨⟨quasis', es', rest'⟩, hrec, hparse⟩ := Option.bind_eq_some_iff.mp hparse
        cases hparse
        obtain ⟨us, uss', hdenotes, hquasis', rfl⟩ :
            ∃ us uss', Denotes chunk.cooked us ∧
              List.Forall₂ (fun (element : TemplateElement) us => Denotes element.cooked us) quasis' uss' ∧
              uss = us :: uss' := by
          cases hquasis with
          | cons hdenotes htail => exact ⟨_, _, hdenotes, htail, rfl⟩
        obtain ⟨-, hends, text, hcs, htext⟩ := hstep hdenotes
        obtain ⟨ds, -, hexpr', -⟩ | ⟨ds, hlast, -, hafter⟩ := templateChunk_ends hscan hends
        · exact absurd hexpr' hexpr
        · rw [hlast] at hcs
          rw [hafter] at he
          obtain ⟨ds', rfl, hrest⟩ := hnext hcs htext he
          rw [hcs]
          exact .chunk htext he ((hrest _ _).mp ⟨quasis', hrec, hquasis'⟩)
    · intro hgrammar
      -- the chunk of the grammar is one for both scans
      have hstep {us : List UInt16} {text last : List UInt8} (hcs : utf8Text cs = text ++ last)
          (htext : StringText '`' text us) (hends : Ends '`' last) :=
        (hchunk us last last).mpr ⟨rfl, hends, text, hcs, htext⟩
      generalize hiter : utf8Text cs = iter at hgrammar
      cases hgrammar with
      | @tail text _ us htext =>
        obtain ⟨chunk, hscan, hdenotes, -, hlast⟩ := hstep hiter htext ⟨rest, .inl rfl⟩
        refine ⟨[⟨chunk.raw.str, chunk.cooked⟩], ?_, .cons hdenotes .nil⟩
        obtain ⟨ds, hlast', hexpr, hafter⟩ | ⟨ds, hlast', -, -⟩ :=
          templateChunk_ends hscan (hlast ▸ ⟨rest, .inl rfl⟩)
        · obtain rfl : rest = utf8Text ds := by simpa [hlast] using hlast'
          rw [← hiter, parseTemplateLiteral, hscan]
          simp [hexpr, hafter]
        · rw [hlast] at hlast'
          cases hlast'
      | @chunk text after iter _ us uss' e es' htext he hrest =>
        obtain ⟨chunk, hscan, hdenotes, -, hlast⟩ := hstep hiter htext ⟨after, .inr ⟨rfl, rfl⟩⟩
        obtain ⟨ds, hlast', -, -⟩ | ⟨ds, hlast', hexpr, hafter⟩ :=
          templateChunk_ends hscan (hlast ▸ ⟨after, .inr ⟨rfl, rfl⟩⟩)
        · rw [hlast] at hlast'
          cases hlast'
        · obtain rfl : after = utf8Text ds := by simpa [hlast] using hlast'
          obtain ⟨ds', rfl, hiff⟩ := hnext hiter htext he
          obtain ⟨quasis, hparse, hquasis⟩ := (hiff _ _).mpr hrest
          refine ⟨⟨chunk.raw.str, chunk.cooked⟩ :: quasis, ?_, .cons hdenotes hquasis⟩
          rw [← hiter, parseTemplateLiteral, hscan]
          simp [hexpr, hafter, he, hparse]

/-- The two scans of a chunk agree with the grammar just where no odd escape comes in, and the parser
takes just the template literals made of such chunks. -/
theorem scansTemplate_iff
    (hexpression : ∀ cs e iter, parseExpression (utf8Text cs) = some (e, iter) →
      ∃ text rest, cs = text ++ rest ∧ iter = utf8Text rest) :
    (∀ cs, ScansChunk cs ↔ Unaffected cs) ∧
    ∀ cs, (∀ ds, ChunkStart parseExpression cs ds → Unaffected ds) →
      ∀ n, (utf8Text cs).length < n → ∀ uss es rest,
        ParsesTemplate parseExpression n (utf8Text cs) uss es rest ↔
          TemplateLiteral parseExpression (utf8Text cs) uss es rest :=
  ⟨scansChunk_iff_unaffected, fun _ h _ hn =>
    parsesTemplate_iff_of_unaffected parseExpression hexpression hn h⟩

end Template

theorem unaffected_of_scanText
    (hscan : Lexer.scanText '`' ((utf8Text cs).length + 1) cs = some (cps, false, rest))
    (hodd : oddEscape cs = none) : Unaffected cs := by
  refine ⟨fun _ _ _ _ _ _ => hodd, fun text last hcs h hends => ?_⟩
  have hlength : text.length < (utf8Text cs).length + 1 := by
    rw [hcs, List.length_append]
    omega
  obtain ⟨_, _, _, hread, -⟩ := Lexer.scanText_of_emptyBraces (by decide) h hends hcs hlength
  cases hscan.symm.trans hread

/-- A name before a right brace. -/
def parseB : List UInt8 → Option (Unit × List UInt8)
  | 98 :: 125 :: iter => some ((), iter)
  | _ => none

theorem parseB_characters {e : Unit} {iter : List UInt8} (h : parseB (utf8Text cs) = some (e, iter)) :
    ∃ rest, cs = 'b' :: '}' :: rest ∧ iter = utf8Text rest := by
  unfold parseB at h
  split at h
  next iter' hcs =>
    obtain ⟨ds, rfl, hds⟩ := Lexer.utf8Text_eq_cons (c := 'b') (by decide) hcs
    obtain ⟨rest, rfl, hrest⟩ := Lexer.utf8Text_eq_cons (c := '}') (by decide) hds
    simp only [Option.some.injEq, Prod.mk.injEq, true_and] at h
    exact ⟨rest, rfl, by rw [← h, hrest]⟩
  next => cases h

theorem ChunkStart.eq_or {stop ds : List Char} (h : ChunkStart parseB cs ds)
    (hscan : Lexer.scanText '`' ((utf8Text cs).length + 1) cs = some (cps, false, stop)) :
    ds = cs ∨ ∃ es, stop = '$' :: '\x7b' :: 'b' :: '}' :: es ∧ ChunkStart parseB es ds := by
  cases h with
  | first => exact .inl rfl
  | @next _ ds' _ text after us e hcs htext he hnext =>
    right
    have hlength : text.length < (utf8Text cs).length + 1 := by
      rw [hcs, List.length_append]
      omega
    obtain ⟨_, _, hread, hstop, -⟩ :=
      Lexer.scanText_of_stringText (by decide) htext ⟨after, .inr ⟨rfl, rfl⟩⟩ hcs hlength
    cases hscan.symm.trans hread
    obtain ⟨stop₁, rfl, hstop₁⟩ := Lexer.utf8Text_eq_cons (by decide) hstop
    obtain ⟨stop₂, rfl, rfl⟩ := Lexer.utf8Text_eq_cons (by decide) hstop₁
    obtain ⟨es, rfl, hes⟩ := parseB_characters he
    obtain rfl := utf8Text_injective hes
    exact ⟨_, rfl, hnext⟩

/-- The template literal with the chunks `a` and `c`. -/
theorem scansTemplate_example : (parseB (utf8Text ['b', '}'])).isSome ∧ ∀ uss es rest,
    ParsesTemplate parseB 8 (utf8Text ['a', '$', '\x7b', 'b', '}', 'c', '`']) uss es rest ↔
      TemplateLiteral parseB (utf8Text ['a', '$', '\x7b', 'b', '}', 'c', '`']) uss es rest := by
  refine ⟨rfl, (scansTemplate_iff parseB ?_).2 _ ?_ 8 (by decide)⟩
  · intro cs e iter h
    obtain ⟨rest, rfl, rfl⟩ := parseB_characters h
    exact ⟨['b', '}'], rest, rfl, rfl⟩
  · intro ds h
    have hfirst : Lexer.scanText '`' 8 ['a', '$', '\x7b', 'b', '}', 'c', '`'] =
        some ([97], false, ['$', '\x7b', 'b', '}', 'c', '`']) := by rfl
    have hsecond : Lexer.scanText '`' 3 ['c', '`'] = some ([99], false, ['`']) := by rfl
    obtain rfl | ⟨es, hes, hstart⟩ := h.eq_or hfirst
    · exact unaffected_of_scanText hfirst (by decide)
    obtain rfl : es = ['c', '`'] := by simpa using hes.symm
    obtain rfl | ⟨_, h, -⟩ := hstart.eq_or hsecond
    · exact unaffected_of_scanText hsecond (by decide)
    · cases h

/-- The chunk with an escaped dollar sign before a brace, where the second scan takes these for the start
of an expression. -/
theorem escaped_dollar_disagrees : ¬ ScansChunk ['\\', '$', '\x7b', '`'] := by
  intro h
  have hcooked : Lexer.scanString '`'.toNat (utf8Text ['\\', '$', '\x7b', '`']) false =
      some ([36, 123], [96]) := by rfl
  have hchunk : templateChunk (utf8Text ['\\', '$', '\x7b', '`']) =
      some ⟨[36, 123], [96], ⟨[92], [36, 123, 96], true⟩, [96]⟩ := by rfl
  have hdenotes : Denotes [36, 123] [36, 123] :=
    ⟨[36, 123], by simp, by rfl, by rfl⟩
  obtain ⟨heq, -⟩ := (h [36, 123] [96] [36, 123, 96]).mp ⟨_, hchunk, hdenotes, rfl, rfl⟩
  exact absurd heq (by decide)

end ArkTs2abc.Es2panda
