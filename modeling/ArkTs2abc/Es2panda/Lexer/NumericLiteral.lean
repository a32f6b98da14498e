import ArkTs2abc.Es2panda.Lexer.ScanNumber

/-!
# Numeric literals

The grammar of numeric literals in strict mode code, where no decimal literal has a leading zero, and how
far a literal goes in a text.

## Main definitions

* `NumericLiteral` — the grammar.
* `FollowOk` — what may follow a literal.
* `ReadsNumber` — the longest literal at the start of a text.

## Main results

* `NumericLiteral.not_append` — a literal goes on with a letter, a digit or an underscore, or an integer
with a dot.
-/

namespace ArkTs2abc.Es2panda.Lexer

/-- Digits with single underscores between them. -/
inductive Digits (P : ℕ → Bool) : List Char → Prop
  | single {c : Char} (hc : P c.toNat) : Digits P [c]
  | cons {c : Char} {cs : List Char} (hc : P c.toNat) (hcs : Digits P cs) : Digits P (c :: cs)
  | separator {c : Char} {cs : List Char} (hc : P c.toNat) (hcs : Digits P cs) : Digits P (c :: '_' :: cs)

inductive DecimalInteger : List Char → Prop
  | zero : DecimalInteger ['0']
  | nonZero {c : Char} {cs : List Char} (hc : c ≠ '0') (hcs : Digits isDecimalDigit (c :: cs)) :
      DecimalInteger (c :: cs)

/-- What may stand between an integer and its exponent. -/
inductive Fraction : List Char → Prop
  | none : Fraction []
  | dot : Fraction ['.']
  | digits {ds : List Char} (h : Digits isDecimalDigit ds) : Fraction ('.' :: ds)

inductive SignedInteger : List Char → Prop
  | unsigned {ds : List Char} (h : Digits isDecimalDigit ds) : SignedInteger ds
  | signed {c : Char} {ds : List Char} (hc : c = '+' ∨ c = '-') (h : Digits isDecimalDigit ds) :
      SignedInteger (c :: ds)

/-- An exponent, or none. -/
inductive Exponent : List Char → Prop
  | none : Exponent []
  | part {c : Char} {ds : List Char} (hc : c = 'e' ∨ c = 'E') (h : SignedInteger ds) : Exponent (c :: ds)

inductive RadixInteger : List Char → Prop
  | binary {c : Char} {ds : List Char} (hc : c = 'b' ∨ c = 'B') (h : Digits isBinaryDigit ds) :
      RadixInteger ('0' :: c :: ds)
  | octal {c : Char} {ds : List Char} (hc : c = 'o' ∨ c = 'O') (h : Digits isOctalDigit ds) :
      RadixInteger ('0' :: c :: ds)
  | hex {c : Char} {ds : List Char} (hc : c = 'x' ∨ c = 'X') (h : Digits isHexDigit ds) :
      RadixInteger ('0' :: c :: ds)

inductive NumericLiteral : List Char → Prop
  | decimal {i f e : List Char} (hi : DecimalInteger i) (hf : Fraction f) (he : Exponent e) :
      NumericLiteral (i ++ f ++ e)
  | point {ds e : List Char} (hds : Digits isDecimalDigit ds) (he : Exponent e) :
      NumericLiteral ('.' :: ds ++ e)
  | bigInt {i : List Char} (hi : DecimalInteger i) : NumericLiteral (i ++ ['n'])
  | radix {r : List Char} (hr : RadixInteger r) : NumericLiteral r
  | radixBigInt {r : List Char} (hr : RadixInteger r) : NumericLiteral (r ++ ['n'])

/-- No identifier starts directly behind a number, and no digit stands there. -/
def FollowOk (idStart : ℕ → Bool) (rest : List Char) : Prop :=
  ∀ c ∈ rest.head?, ¬(IdentifierStart idStart c ∨ isDigit c)

/-- A text starts with the literal, and with no longer one. -/
structure ReadsNumber (idStart : ℕ → Bool) (cs lit rest : List Char) : Prop where
  text : cs = lit ++ rest
  literal : NumericLiteral lit
  longest : ∀ lit', lit' <+: cs → NumericLiteral lit' → lit'.length ≤ lit.length
  follow : FollowOk idStart rest

/-- Letters, digits, dollars and underscores. -/
def isWord (c : Char) : Bool := asciiIdContinue c.toNat

section Words

theorem isWord_underscore : isWord '_' := by decide

theorem isWord_of_isDecimalDigit {c : Char} (h : isDecimalDigit c.toNat) : isWord c := by
  simp [isWord, asciiIdContinue, h]

theorem isWord_of_isHexDigit {c : Char} (h : isHexDigit c.toNat) : isWord c := by
  simp only [isHexDigit, isWord, asciiIdContinue, asciiIdStart, isDecimalDigit] at h ⊢
  grind

theorem isWord_of_isOctalDigit {c : Char} (h : isOctalDigit c.toNat) : isWord c := by
  simp only [isOctalDigit, isWord, asciiIdContinue, asciiIdStart, isDecimalDigit] at h ⊢
  grind

theorem isWord_of_isBinaryDigit {c : Char} (h : isBinaryDigit c.toNat) : isWord c := by
  simp only [isBinaryDigit, isWord, asciiIdContinue, asciiIdStart, isDecimalDigit] at h ⊢
  grind

theorem toNat_lt_of_isWord {c : Char} (h : isWord c) : c.toNat < 0x80 := by
  simp only [isWord, asciiIdContinue, asciiIdStart, isDecimalDigit] at h
  grind

variable {P : ℕ → Bool} {ds : List Char}

theorem Digits.mem (h : Digits P ds) {c : Char} (hc : c ∈ ds) : c = '_' ∨ P c.toNat := by
  induction h with grind

theorem Digits.ne_nil (h : Digits P ds) : ds ≠ [] := by
  cases h <;> simp

theorem Digits.getLast (h : Digits P ds) : ∃ c ∈ ds.getLast?, P c.toNat := by
  induction h with
  | single hc => exact ⟨_, rfl, hc⟩
  | @cons c cs hc hcs ih =>
    obtain ⟨d, hd, hP⟩ := ih
    exact ⟨d, by grind, hP⟩
  | @separator c cs hc hcs ih =>
    obtain ⟨d, hd, hP⟩ := ih
    exact ⟨d, by grind, hP⟩

theorem Digits.isWord (h : Digits P ds) (hP : ∀ c : Char, P c.toNat → isWord c) {c : Char} (hc : c ∈ ds) :
    isWord c := by
  rcases h.mem hc with rfl | hc
  · exact isWord_underscore
  · exact hP c hc

theorem DecimalInteger.digits {i : List Char} (h : DecimalInteger i) : Digits isDecimalDigit i := by
  cases h with
  | zero => exact .single (by decide)
  | nonZero hc hcs => exact hcs

theorem RadixInteger.isWord {r : List Char} (h : RadixInteger r) {c : Char} (hc : c ∈ r) : isWord c := by
  have hletter (d : Char) (hd : d ∈ ['b', 'B', 'o', 'O', 'x', 'X', '0']) : Lexer.isWord d := by
    revert d
    decide
  cases h with
  | binary hd h =>
    have := h.isWord (c := c) fun _ => isWord_of_isBinaryDigit
    grind
  | octal hd h =>
    have := h.isWord (c := c) fun _ => isWord_of_isOctalDigit
    grind
  | hex hd h =>
    have := h.isWord (c := c) fun _ => isWord_of_isHexDigit
    grind

end Words

section Longest

theorem append_eq_append_cons {xs ys us vs : List Char} {x : Char} (h : xs ++ ys = us ++ x :: vs)
    (hx : x ∉ xs) : ∃ zs, us = xs ++ zs ∧ ys = zs ++ x :: vs := by
  rcases List.append_eq_append_iff.mp h with ⟨zs, hus, hys⟩ | ⟨zs, hxs, hvs⟩
  · exact ⟨zs, hus, hys⟩
  · rcases zs with _ | ⟨z, zs⟩
    · exact ⟨[], by simpa using hxs.symm, by simpa using hvs.symm⟩
    · have hz : x = z := by simp_all
      simp [hxs, hz] at hx

variable {x : Char} {i f e lit more : List Char}

theorem DecimalInteger.not_mem (h : DecimalInteger i) (hx : ¬isWord x) : x ∉ i :=
  fun hmem => hx (h.digits.isWord (fun _ => isWord_of_isDecimalDigit) hmem)

theorem Digits.not_mem {ds : List Char} (h : Digits isDecimalDigit ds) (hx : ¬Lexer.isWord x) : x ∉ ds :=
  fun hmem => hx (h.isWord (fun _ => isWord_of_isDecimalDigit) hmem)

theorem Exponent.eq_of_append (h : Exponent e) {zs : List Char} (he : e = zs ++ x :: more) (hx : ¬isWord x) :
    ∃ c, (c = 'e' ∨ c = 'E') ∧ zs = [c] := by
  cases h with
  | none => simp at he
  | @part c ds hc h =>
    refine ⟨c, hc, ?_⟩
    have hxc : x ≠ c := by
      rintro rfl
      rcases hc with rfl | rfl <;> exact hx (by decide)
    rcases zs with _ | ⟨z, zs⟩
    · simp_all
    · obtain ⟨rfl, hds⟩ : c = z ∧ ds = zs ++ x :: more := by simpa using he
      cases h with
      | unsigned h => exact absurd (show x ∈ ds by simp [hds]) (h.not_mem hx)
      | @signed s ds' hs h =>
        rcases zs with _ | ⟨z', zs⟩
        · rfl
        · have hds' : ds' = zs ++ x :: more := by simp_all
          exact absurd (show x ∈ ds' by simp [hds']) (h.not_mem hx)

theorem eq_of_fraction_append (hf : Fraction f) (he : Exponent e) {zs : List Char}
    (h : f ++ e = zs ++ x :: more) (hx : ¬isWord x) :
    (x = '.' ∧ zs = []) ∨ ∃ c, (c = 'e' ∨ c = 'E') ∧ zs = f ++ [c] := by
  have hrest (ds : List Char) (hds : x ∉ ds) (zs : List Char) (h : ds ++ e = zs ++ x :: more) :
      ∃ c, (c = 'e' ∨ c = 'E') ∧ zs = ds ++ [c] := by
    obtain ⟨ws, hzs, he'⟩ := append_eq_append_cons h hds
    obtain ⟨c, hc, hws⟩ := he.eq_of_append he' hx
    exact ⟨c, hc, by rw [hzs, hws]⟩
  have hdot (ds : List Char) (hds : x ∉ ds) (h : '.' :: ds ++ e = zs ++ x :: more) :
      (x = '.' ∧ zs = []) ∨ ∃ c, (c = 'e' ∨ c = 'E') ∧ zs = '.' :: ds ++ [c] := by
    rcases zs with _ | ⟨z, zs⟩
    · exact .inl ⟨(List.cons.inj h).1.symm, rfl⟩
    · obtain ⟨hz, htail⟩ : '.' = z ∧ ds ++ e = zs ++ x :: more := by simpa using h
      obtain ⟨c, hc, hzs⟩ := hrest ds hds zs htail
      exact .inr ⟨c, hc, by rw [← hz, hzs, List.cons_append]⟩
  cases hf with
  | none => exact .inr (hrest [] (by simp) zs h)
  | dot => exact hdot [] (by simp) h
  | digits hds => exact hdot _ (hds.not_mem hx) h

/-- The characters of a decimal literal before its exponent. -/
def isMantissa (c : Char) : Bool := isDigit c || c = '_' || c = '.'

theorem Digits.isMantissa {ds : List Char} (h : Digits isDecimalDigit ds) {c : Char} (hc : c ∈ ds) :
    isMantissa c := by
  rcases h.mem hc with rfl | hc
  · rfl
  · simp [Lexer.isMantissa, isDigit, hc]

theorem Fraction.isMantissa (h : Fraction f) {c : Char} (hc : c ∈ f) : isMantissa c := by
  cases h with
  | none => simp at hc
  | dot =>
    obtain rfl : c = '.' := by simpa using hc
    rfl
  | digits hds =>
    rcases List.mem_cons.mp hc with rfl | hc
    · rfl
    · exact hds.isMantissa hc

/-- A literal of digits, underscores and dots ends with a digit or a dot. -/
theorem NumericLiteral.getLast_of_not_mem (h : NumericLiteral lit) (hn : 'n' ∉ lit)
    (hr : ∀ c ∈ lit.tail.head?, c ∉ ['b', 'B', 'o', 'O', 'x', 'X']) :
    ∃ c ∈ lit.getLast?, isDigit c ∨ c = '.' := by
  have hexponent {m e : List Char} (hm : ∃ c ∈ m.getLast?, isDigit c ∨ c = '.') (he : Exponent e) :
      ∃ c ∈ (m ++ e).getLast?, isDigit c ∨ c = '.' := by
    cases he with
    | none => simpa using hm
    | @part c ds hc h =>
      cases h with
      | unsigned h =>
        obtain ⟨d, hd, hdigit⟩ := h.getLast
        exact ⟨d, by grind, .inl hdigit⟩
      | signed hs h =>
        obtain ⟨d, hd, hdigit⟩ := h.getLast
        exact ⟨d, by grind, .inl hdigit⟩
  cases h with
  | decimal hi hf he =>
    refine hexponent ?_ he
    cases hf with
    | none =>
      obtain ⟨d, hd, hdigit⟩ := hi.digits.getLast
      exact ⟨d, by simpa using hd, .inl hdigit⟩
    | dot => exact ⟨'.', by simp, .inr rfl⟩
    | digits hds =>
      obtain ⟨d, hd, hdigit⟩ := hds.getLast
      exact ⟨d, by grind, .inl hdigit⟩
  | point hds he =>
    refine hexponent ?_ he
    obtain ⟨d, hd, hdigit⟩ := hds.getLast
    exact ⟨d, by grind, .inl hdigit⟩
  | bigInt hi => simp at hn
  | radix hr' => cases hr' <;> simp_all
  | radixBigInt hr' => simp at hn

theorem not_numericLiteral_exponent {m : List Char} (hm : ∀ c ∈ m, isMantissa c) {c : Char}
    (hc : c = 'e' ∨ c = 'E') : ¬NumericLiteral (m ++ [c]) := by
  intro h
  have hmem (d : Char) (hd : d ∈ m ++ [c]) : d ∉ ['b', 'B', 'o', 'O', 'x', 'X', 'n'] := by
    rcases List.mem_append.mp hd with hd | hd
    · have hd := hm d hd
      contrapose! hd
      clear * - hd
      revert d
      decide
    · obtain rfl : d = c := by simpa using hd
      rcases hc with rfl | rfl <;> decide
  obtain ⟨d, hd, hlast⟩ := h.getLast_of_not_mem
    (fun hn => hmem _ hn (by decide))
    (fun d hd => by
      have := hmem d (List.mem_of_mem_tail (List.mem_of_mem_head? hd))
      grind)
  obtain rfl : c = d := by simpa using hd
  rcases hc with rfl | rfl <;> revert hlast <;> decide

/-- A literal goes on with a letter, a digit or an underscore, or an integer with a dot. -/
theorem NumericLiteral.not_append (h : NumericLiteral lit) (hx : ¬isWord x)
    (hdot : x = '.' → ¬DecimalInteger lit) : ¬NumericLiteral (lit ++ x :: more) := by
  intro hmore
  generalize hwhole : lit ++ x :: more = whole at hmore
  have hword (hwords : ∀ c ∈ whole, isWord c) : False := hx (hwords x (by simp [← hwhole]))
  cases hmore with
  | @decimal i f e hi hf he =>
    rw [List.append_assoc] at hwhole
    obtain ⟨zs, hlit, hzs⟩ := append_eq_append_cons hwhole.symm (hi.not_mem hx)
    rcases eq_of_fraction_append hf he hzs hx with ⟨rfl, rfl⟩ | ⟨c, hc, rfl⟩
    · rw [List.append_nil] at hlit
      exact hdot rfl (hlit ▸ hi)
    · rw [hlit, ← List.append_assoc] at h
      refine not_numericLiteral_exponent (fun d hd => ?_) hc h
      exact (List.mem_append.mp hd).elim hi.digits.isMantissa hf.isMantissa
  | @point ds e hds he =>
    rcases eq_of_fraction_append (.digits hds) he hwhole.symm hx with ⟨-, rfl⟩ | ⟨c, hc, rfl⟩
    · obtain ⟨c, hc, -⟩ := h.getLast_of_not_mem (by simp) (by simp)
      simp at hc
    · exact not_numericLiteral_exponent (fun d hd => (Fraction.digits hds).isMantissa hd) hc h
  | bigInt hi =>
    refine hword fun c hc => ?_
    rcases List.mem_append.mp hc with hc | hc
    · exact hi.digits.isWord (fun _ => isWord_of_isDecimalDigit) hc
    · obtain rfl : c = 'n' := by simpa using hc
      decide
  | radix hr => exact hword fun c hc => hr.isWord hc
  | radixBigInt hr =>
    refine hword fun c hc => ?_
    rcases List.mem_append.mp hc with hc | hc
    · exact hr.isWord hc
    · obtain rfl : c = 'n' := by simpa using hc
      decide

theorem NumericLiteral.longest (h : NumericLiteral lit) {rest : List Char}
    (hword : ∀ x ∈ rest.head?, ¬isWord x) (hdot : rest.head? = some '.' → ¬DecimalInteger lit)
    (lit' : List Char) (hstarts : lit' <+: lit ++ rest) (h' : NumericLiteral lit') :
    lit'.length ≤ lit.length := by
  by_contra hlt
  obtain ⟨more, rfl⟩ := List.prefix_of_prefix_length_le (List.prefix_append lit rest) hstarts (by omega)
  rcases more with _ | ⟨x, more⟩
  · simp at hlt
  · obtain ⟨ds, hds⟩ := hstarts
    have hrest : rest = x :: (more ++ ds) := by simpa using hds.symm
    exact h.not_append (hword x (by simp [hrest])) (fun hx => hdot (by simp [hrest, hx])) h'

end Longest

end ArkTs2abc.Es2panda.Lexer
