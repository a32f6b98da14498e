import ArkTs2abc.Es2panda.Lexer.Iterator

/-!
# Source text in the debug information

A function carries the text of the source, and an instruction that of its node, as
modified UTF-8 with backslash escapes. The line ends become line feeds; for a
carriage return the loop looks one byte too far.

## Main definitions

* `StringView.escapeSymbol`, `wholeLine` — as in the emitter.
* `unescape` — undoes the escapes.
* `lineFeeds` — a text with each of its line ends as one line feed.
* `Restorable` — the texts whose carriage returns stand where the lookahead does no harm.

## Main results

* `wholeLine_restores_iff` — a range of the source is restored just if it is one of those.
-/

namespace ArkTs2abc.Es2panda

open Unicode

namespace StringView

/-- Behind a carriage return: `Forward(1)`, and `Backward(1)` where that is not before a line feed. -/
def skipLineFeed (iter : List UInt8) : List UInt8 :=
  if iter = [] then iter
  else if Lexer.peek iter.tail = Lexer.LEX_CHAR_LF then iter.tail
  else iter

/-- What is written for a code point. -/
def escapeCp (encoder : ℕ → List UInt8) (cp : ℕ) : List UInt8 :=
  if cp = '\r'.toNat ∨ cp = '\n'.toNat then [byte '\\', byte 'n']
  else if cp = 0x08 then [byte '\\', byte 'b']
  else if cp = '\t'.toNat then [byte '\\', byte 't']
  else if cp = 0x0C then [byte '\\', byte 'f']
  else if cp = '"'.toNat then [byte '\\', byte '"']
  else if cp = '\\'.toNat then [byte '\\', byte '\\']
  else encoder cp

/-- The loop of `EscapeSymbol`, for at most `n` code points. -/
def escapeSymbolLoop (encoder : ℕ → List UInt8) : ℕ → List UInt8 → Option (List UInt8)
  | _, [] => some []
  | 0, _ => none
  | n + 1, iter => do
    let (cp, iter) ← decodeCP iter
    let rest ← escapeSymbolLoop encoder n (if cp = '\r'.toNat then skipLineFeed iter else iter)
    some (escapeCp encoder cp ++ rest)

/-- `StringView::EscapeSymbol`. -/
def escapeSymbol (encoder : ℕ → List UInt8) (sv : List UInt8) : Option (List UInt8) :=
  escapeSymbolLoop encoder sv.length sv

/-- `StringView::Substr`. -/
def substr (sv : List UInt8) (first last : ℕ) : List UInt8 := (sv.drop first).take (last - first)

end StringView

/-- `WholeLine`: the text of a node. -/
def wholeLine (source : List UInt8) (first last : ℕ) : Option (List UInt8) :=
  StringView.escapeSymbol (mutf8Encode 3) (StringView.substr source first last)

/-- The `source_code` of the program's function. -/
def genSourceCode (source : List UInt8) : Option (List UInt8) :=
  StringView.escapeSymbol (mutf8Encode 3) source

/-! ## What the text is meant to be -/

/-- The byte an escape stands for. -/
def unescapeByte (b : UInt8) : Option UInt8 :=
  if b = byte 'n' then some (byte '\n')
  else if b = byte 'b' then some 0x08
  else if b = byte 't' then some (byte '\t')
  else if b = byte 'f' then some 0x0C
  else if b = byte '"' then some b
  else if b = byte '\\' then some b
  else none

/-- Undoes the escapes. -/
def unescape : List UInt8 → Option (List UInt8)
  | [] => some []
  | b :: bytes =>
    if b = byte '\\' then
      match bytes with
      | [] => none
      | b :: bytes => do
        let b ← unescapeByte b
        let rest ← unescape bytes
        some (b :: rest)
    else (unescape bytes).map (b :: ·)

/-- A text with a line feed for each pair of carriage return and line feed, and for each other carriage
return. -/
def lineFeeds : List Char → List Char
  | [] => []
  | '\r' :: '\n' :: cs => '\n' :: lineFeeds cs
  | '\r' :: cs => '\n' :: lineFeeds cs
  | c :: cs => c :: lineFeeds cs

/-- Whether each pair of carriage return and line feed has a line feed behind it or a carriage return
before it, and no ASCII character but these two stands between a carriage return and a line feed.
`afterReturn` says if there is a carriage return before the text. -/
def RestorableFrom (afterReturn : Bool) : List Char → Prop
  | [] => True
  | c :: cs =>
    (c = '\r' → cs.head? = some '\n' → afterReturn ∨ cs.tail.head? = some '\n') ∧
    (c = '\r' → cs.tail.head? = some '\n' → ∀ d ∈ cs.head?, d = '\r' ∨ d = '\n' ∨ 0x80 ≤ d.toNat) ∧
    RestorableFrom (c = '\r') cs

/-- `RestorableFrom` the start. -/
def Restorable (cs : List Char) : Prop := RestorableFrom false cs

/-! ## The escapes -/

theorem mem_mutf8Unit {u : ℕ} (hu : u < 0x10000) {b : UInt8} (hb : b ∈ mutf8Unit u) :
    b.toNat = u ∨ 0x80 ≤ b.toNat := by
  unfold mutf8Unit at hb
  split_ifs at hb
  all_goals simp only [List.mem_cons, List.not_mem_nil, or_false] at hb
  all_goals
    rcases hb with rfl | rfl | rfl
    all_goals
      rw [toNat_lead (by omega)]
      omega

theorem backslash_not_mem_mutf8 {c : Char} (hc : c ≠ '\\') : byte '\\' ∉ mutf8 (units c.toNat) := by
  intro hmem
  obtain ⟨u, hu, hmem⟩ := List.mem_flatMap.mp hmem
  have hb := mem_mutf8Unit u.toNat_lt hmem
  have hbyte : (byte '\\').toNat = '\\'.toNat := rfl
  have hchar : c.toNat ≠ '\\'.toNat := Lexer.toNat_ne hc
  have hlt := (toNat_char_lt c).1
  have hcode : '\\'.toNat = 0x5C := rfl
  unfold units at hu
  split_ifs at hu with hsmall
  · obtain rfl := List.mem_singleton.mp hu
    rw [UInt16.toNat_ofNat', Nat.mod_eq_of_lt hsmall] at hb
    omega
  · simp only [List.mem_cons, List.not_mem_nil, or_false] at hu
    rcases hu with rfl | rfl
    · rw [UInt16.toNat_ofNat', Nat.mod_eq_of_lt (by omega)] at hb
      omega
    · rw [UInt16.toNat_ofNat', Nat.mod_eq_of_lt (by omega)] at hb
      omega

theorem unescape_append {bytes : List UInt8} (h : byte '\\' ∉ bytes) (rest : List UInt8) :
    unescape (bytes ++ rest) = (unescape rest).map (bytes ++ ·) := by
  induction bytes with
  | nil => simp
  | cons b bytes ih =>
    obtain ⟨hb, hbytes⟩ := not_or.mp (mt List.mem_cons.mpr h)
    rw [List.cons_append, unescape.eq_def]
    simp only [Ne.symm hb, if_false, ih hbytes, Option.map_map]
    rfl

theorem unescape_escape {b c : UInt8} (h : unescapeByte b = some c) (rest : List UInt8) :
    unescape ([byte '\\', b] ++ rest) = (unescape rest).map (c :: ·) := by
  rw [List.cons_append, List.singleton_append, unescape]
  simp only [if_true, h]
  cases unescape rest <;> rfl

theorem unescape_escapeCp (c : Char) (rest : List UInt8) :
    unescape (StringView.escapeCp (mutf8Encode 3) c.toNat ++ rest) =
      (unescape rest).map (mutf8 (units (if c = '\r' then '\n' else c).toNat) ++ ·) := by
  by_cases hreturn : c = '\r'
  · subst hreturn
    exact unescape_escape rfl rest
  rw [if_neg hreturn]
  by_cases hspecial : c ∈ ['\n', '\x08', '\t', '\x0C', '"', '\\']
  · simp only [List.mem_cons, List.not_mem_nil, or_false] at hspecial
    rcases hspecial with rfl | rfl | rfl | rfl | rfl | rfl
    all_goals exact unescape_escape rfl rest
  · simp only [List.mem_cons, List.not_mem_nil, or_false, not_or] at hspecial
    obtain ⟨hline, hback, htab, hfeed, hquote, hbackslash⟩ := hspecial
    have hback' : c.toNat ≠ 0x08 := Lexer.toNat_ne hback
    have hfeed' : c.toNat ≠ 0x0C := Lexer.toNat_ne hfeed
    rw [StringView.escapeCp, if_neg (not_or.mpr ⟨Lexer.toNat_ne hreturn, Lexer.toNat_ne hline⟩),
      if_neg hback', if_neg (Lexer.toNat_ne htab), if_neg hfeed', if_neg (Lexer.toNat_ne hquote),
      if_neg (Lexer.toNat_ne hbackslash), mutf8Encode_eq (toNat_char_lt c).1]
    exact unescape_append (backslash_not_mem_mutf8 hbackslash) rest

theorem unescape_flatMap {cs : List Char} (h : '\r' ∉ cs) :
    unescape (cs.flatMap fun c => StringView.escapeCp (mutf8Encode 3) c.toNat) =
      some (mutf8 (utf16Text cs)) := by
  induction cs with
  | nil => rfl
  | cons c cs ih =>
    obtain ⟨hc, hcs⟩ := not_or.mp (mt List.mem_cons.mpr h)
    rw [List.flatMap_cons, unescape_escapeCp, if_neg (Ne.symm hc), ih hcs, utf16Text_cons, mutf8, mutf8,
      mutf8, List.flatMap_append, Option.map_some]

/-! ## What the loop makes of a text -/

/-- A text, and what is embedded for it. -/
inductive Reading : List Char → List Char → Prop where
  | nil : Reading [] []
  | char {c : Char} {cs es : List Char} (hc : c ≠ '\r') : Reading cs es → Reading (c :: cs) (c :: es)
  | single {cs es : List Char} (hhead : cs.head? ≠ some '\n')
      (hnext : ∀ c ∈ cs.head?, cs.tail.head? = some '\n' → 0x80 ≤ c.toNat) :
      Reading cs es → Reading ('\r' :: cs) ('\n' :: es)
  /-- The second line feed is the one found by the lookahead. -/
  | lines {cs es : List Char} :
      Reading cs es → Reading ('\r' :: '\n' :: '\n' :: cs) ('\n' :: '\n' :: es)
  /-- The second carriage return is skipped, and its line feed stands for it. -/
  | returns {cs es : List Char} :
      Reading cs es → Reading ('\r' :: '\r' :: '\n' :: cs) ('\n' :: '\n' :: es)
  /-- The line feed is read again. -/
  | doubled {cs es : List Char} (hhead : cs.head? ≠ some '\n') :
      Reading cs es → Reading ('\r' :: '\n' :: cs) ('\n' :: '\n' :: es)
  /-- The character is lost. -/
  | dropped {c : Char} {cs es : List Char} (hreturn : c ≠ '\r') (hline : c ≠ '\n') (hc : c.toNat < 0x80) :
      Reading cs es → Reading ('\r' :: c :: '\n' :: cs) ('\n' :: '\n' :: es)

theorem exists_reading (cs : List Char) : ∃ es, Reading cs es := by
  induction hn : cs.length using Nat.strong_induction_on generalizing cs with
  | _ n ih =>
    have hrest (ds : List Char) (hlt : ds.length < cs.length) : ∃ es, Reading ds es :=
      ih ds.length (hn ▸ hlt) ds rfl
    rcases cs with _ | ⟨c, cs⟩
    · exact ⟨_, .nil⟩
    obtain ⟨es, hes⟩ := hrest cs (by simp)
    by_cases hc : c = '\r'
    swap
    · exact ⟨_, .char hc hes⟩
    subst hc
    rcases cs with _ | ⟨d, cs⟩
    · exact ⟨_, .single nofun nofun hes⟩
    obtain ⟨fs, hfs⟩ := hrest cs (by simp only [List.length_cons]; omega)
    rcases cs with _ | ⟨e, cs⟩
    · by_cases hd : d = '\n'
      · subst hd
        exact ⟨_, .doubled nofun hfs⟩
      · exact ⟨_, .single (by simpa using hd) nofun hes⟩
    obtain ⟨gs, hgs⟩ := hrest cs (by simp only [List.length_cons]; omega)
    by_cases he : e = '\n'
    · subst he
      by_cases hline : d = '\n'
      · subst hline
        exact ⟨_, .lines hgs⟩
      by_cases hreturn : d = '\r'
      · subst hreturn
        exact ⟨_, .returns hgs⟩
      rcases Nat.lt_or_ge d.toNat 0x80 with hascii | hge
      · exact ⟨_, .dropped hreturn hline hascii hgs⟩
      · exact ⟨_, .single (by simpa using hline) (by simpa using hge) hes⟩
    · by_cases hline : d = '\n'
      · subst hline
        exact ⟨_, .doubled (by simpa using he) hfs⟩
      · exact ⟨_, .single (by simpa using hline) (by simp [he]) hes⟩

namespace StringView

theorem skipLineFeed_ascii {c : Char} (hc : c.toNat < 0x80) (cs : List Char) :
    skipLineFeed (utf8Text (c :: cs)) =
      utf8Text (if cs.head? = some '\n' then cs else c :: cs) := by
  have hne : utf8Text (c :: cs) ≠ [] := mt Lexer.utf8Text_eq_nil_iff.mp nofun
  have hpeek := Lexer.peek_utf8Text_eq_iff (d := '\n') (by decide) cs
  have hline : Lexer.LEX_CHAR_LF = '\n'.toNat := rfl
  rw [skipLineFeed, if_neg hne, Lexer.tail_utf8Text_ascii hc, hline]
  by_cases hhead : cs.head? = some '\n'
  · rw [if_pos (hpeek.mpr hhead), if_pos hhead]
  · rw [if_neg (mt hpeek.mp hhead), if_neg hhead]

theorem skipLineFeed_utf8Text {cs : List Char}
    (h : ∀ c ∈ cs.head?, cs.tail.head? = some '\n' → 0x80 ≤ c.toNat) :
    skipLineFeed (utf8Text cs) = utf8Text cs := by
  rcases cs with _ | ⟨c, cs⟩
  · rfl
  rcases Nat.lt_or_ge c.toNat 0x80 with hascii | hge
  · rw [skipLineFeed_ascii hascii, if_neg]
    intro hhead
    have := h c rfl hhead
    omega
  · have hle := Lexer.le_peek_tail_utf8Text hge cs
    have hline : Lexer.LEX_CHAR_LF = 0x0A := rfl
    have hne : utf8Text (c :: cs) ≠ [] := mt Lexer.utf8Text_eq_nil_iff.mp nofun
    rw [skipLineFeed, if_neg hne, if_neg (by omega)]

theorem escapeSymbolLoop_cons (encoder : ℕ → List UInt8) (n : ℕ) (c : Char) (cs : List Char) :
    escapeSymbolLoop encoder (n + 1) (utf8Text (c :: cs)) =
      (escapeSymbolLoop encoder n (if c = '\r' then skipLineFeed (utf8Text cs) else utf8Text cs)).map
        (escapeCp encoder c.toNat ++ ·) := by
  have hne : utf8Text (c :: cs) ≠ [] := mt Lexer.utf8Text_eq_nil_iff.mp nofun
  rw [escapeSymbolLoop, Lexer.decodeCP_utf8Text_cons]
  · simp only [Char.toNat_inj, Option.bind_eq_bind, Option.bind_some]
    cases escapeSymbolLoop encoder n _ <;> rfl
  · exact hne

/-- The loop writes what the reading says. -/
theorem escapeSymbolLoop_reading {cs es : List Char} (h : Reading cs es) {n : ℕ} (hn : cs.length ≤ n) :
    escapeSymbolLoop (mutf8Encode 3) n (utf8Text cs) =
      some (es.flatMap fun c => escapeCp (mutf8Encode 3) c.toNat) := by
  have hascii : '\r'.toNat < 0x80 ∧ '\n'.toNat < 0x80 := by decide
  have hline : '\n' ≠ '\r' := by decide
  induction h generalizing n with
  | nil => cases n <;> rfl
  | char hc _ ih =>
    obtain ⟨n, rfl⟩ : ∃ k, n = k + 1 := ⟨n - 1, by simp at hn; omega⟩
    rw [escapeSymbolLoop_cons, if_neg hc, ih (by simpa using hn)]
    rfl
  | single hhead hnext _ ih =>
    obtain ⟨n, rfl⟩ : ∃ k, n = k + 1 := ⟨n - 1, by simp at hn; omega⟩
    rw [escapeSymbolLoop_cons, if_pos rfl, skipLineFeed_utf8Text hnext, ih (by simpa using hn)]
    rfl
  | lines _ ih =>
    obtain ⟨n, rfl⟩ : ∃ k, n = k + 2 := ⟨n - 2, by simp at hn; omega⟩
    rw [escapeSymbolLoop_cons, if_pos rfl, skipLineFeed_ascii hascii.2, List.head?_cons,
      if_pos rfl, escapeSymbolLoop_cons, if_neg hline, ih (by simp at hn; omega)]
    rfl
  | returns _ ih =>
    obtain ⟨n, rfl⟩ : ∃ k, n = k + 2 := ⟨n - 2, by simp at hn; omega⟩
    rw [escapeSymbolLoop_cons, if_pos rfl, skipLineFeed_ascii hascii.1, List.head?_cons,
      if_pos rfl, escapeSymbolLoop_cons, if_neg hline, ih (by simp at hn; omega)]
    rfl
  | doubled hhead _ ih =>
    obtain ⟨n, rfl⟩ : ∃ k, n = k + 2 := ⟨n - 2, by simp at hn; omega⟩
    rw [escapeSymbolLoop_cons, if_pos rfl, skipLineFeed_ascii hascii.2, if_neg hhead,
      escapeSymbolLoop_cons, if_neg hline, ih (by simp at hn; omega)]
    rfl
  | dropped _ _ hc _ ih =>
    obtain ⟨n, rfl⟩ : ∃ k, n = k + 2 := ⟨n - 2, by simp at hn; omega⟩
    rw [escapeSymbolLoop_cons, if_pos rfl, skipLineFeed_ascii hc, List.head?_cons,
      if_pos rfl, escapeSymbolLoop_cons, if_neg hline, ih (by simp at hn; omega)]
    rfl

end StringView

/-! ## Line ends -/

theorem lineFeeds_cons {c : Char} (hc : c ≠ '\r') (cs : List Char) :
    lineFeeds (c :: cs) = c :: lineFeeds cs := by
  rw [lineFeeds.eq_def]
  split <;> simp_all

theorem lineFeeds_return {cs : List Char} (h : cs.head? ≠ some '\n') :
    lineFeeds ('\r' :: cs) = '\n' :: lineFeeds cs := by
  rw [lineFeeds.eq_def]
  split <;> grind

namespace Reading

theorem return_not_mem {cs es : List Char} (h : Reading cs es) : '\r' ∉ es := by
  induction h <;> simp_all [eq_comm]

/-- The characters but the line feeds. -/
def others (cs : List Char) : ℕ := (cs.filter (· ≠ '\n')).length

theorem others_cons (c : Char) (cs : List Char) :
    others (c :: cs) = (if c = '\n' then 0 else 1) + others cs := by
  by_cases hc : c = '\n'
  · simp [others, hc]
  · simp [others, hc]
    omega

theorem bounds {cs es : List Char} (h : Reading cs es) :
    others es < others (lineFeeds cs) ∨
      others es = others (lineFeeds cs) ∧ (lineFeeds cs).length ≤ es.length := by
  induction h with
  | nil => simp [lineFeeds]
  | char hc _ ih =>
    simp only [lineFeeds_cons hc, others_cons, List.length_cons]
    omega
  | single hhead _ _ ih =>
    simp only [lineFeeds_return hhead, others_cons, List.length_cons]
    omega
  | lines _ ih =>
    simp only [lineFeeds, lineFeeds_cons (by decide : '\n' ≠ '\r'), others_cons, List.length_cons]
    omega
  | returns _ ih =>
    rw [lineFeeds_return (by simp), lineFeeds]
    simp only [others_cons, List.length_cons]
    omega
  | doubled _ _ ih =>
    simp only [lineFeeds, others_cons, List.length_cons, if_true]
    omega
  | dropped hreturn hline _ _ ih =>
    rw [lineFeeds_return (by simpa using hline), lineFeeds_cons hreturn, lineFeeds_cons (by decide)]
    simp only [others_cons, List.length_cons, if_neg hline, if_true]
    omega

theorem restorableFrom_iff {cs : List Char} (h : ∀ ds, cs ≠ '\r' :: '\n' :: ds) :
    RestorableFrom true cs ↔ RestorableFrom false cs := by
  rcases cs with _ | ⟨c, cs⟩
  · rfl
  · have hpair : c = '\r' → cs.head? ≠ some '\n' := by
      rintro rfl hhead
      obtain ⟨ds, rfl⟩ := List.head?_eq_some_iff.mp hhead
      exact h ds rfl
    grind [RestorableFrom]

/-- What is embedded has the right line ends just for the restorable texts. -/
theorem eq_iff {cs es : List Char} (h : Reading cs es) : es = lineFeeds cs ↔ Restorable cs := by
  unfold Restorable
  induction h with
  | nil => simp [lineFeeds, RestorableFrom]
  | char hc _ ih => simp [lineFeeds_cons hc, RestorableFrom, hc, ih]
  | @single cs es hhead hnext _ ih =>
    have hpair (ds : List Char) : cs ≠ '\r' :: '\n' :: ds := by
      rintro rfl
      exact absurd (hnext '\r' rfl rfl) (by decide)
    rw [lineFeeds_return hhead, List.cons_inj_right, ih, ← restorableFrom_iff hpair]
    grind [RestorableFrom]
  | lines _ ih =>
    simp only [lineFeeds, lineFeeds_cons (by decide : '\n' ≠ '\r'), List.cons_inj_right, ih]
    simp [RestorableFrom]
  | returns _ ih =>
    rw [lineFeeds_return (by simp), lineFeeds, List.cons_inj_right, List.cons_inj_right, ih]
    simp [RestorableFrom]
  | @doubled cs es hhead hreading _ =>
    have hne : '\n' :: es ≠ lineFeeds cs := by
      intro heq
      have hbounds := hreading.bounds
      rw [← heq, others_cons, List.length_cons, if_pos rfl] at hbounds
      omega
    simp [lineFeeds, RestorableFrom, hne, hhead]
  | @dropped c cs es hreturn hline hc hreading _ =>
    have hne : '\n' :: es ≠ c :: '\n' :: lineFeeds cs := fun heq => hline (List.cons.inj heq).1.symm
    rw [lineFeeds_return (by simpa using hline), lineFeeds_cons hreturn, lineFeeds_cons (by decide),
      List.cons_inj_right]
    simp [RestorableFrom, hne, hreturn, hline, hc]

end Reading

/-! ## The range of a node -/

theorem substr_utf8Text (before cut after : List Char) :
    StringView.substr (utf8Text (before ++ cut ++ after)) (utf8Text before).length
      (utf8Text (before ++ cut)).length = utf8Text cut := by
  simp [StringView.substr]

theorem escapeSymbol_reading {cs es : List Char} (h : Reading cs es) :
    StringView.escapeSymbol (mutf8Encode 3) (utf8Text cs) =
      some (es.flatMap fun c => StringView.escapeCp (mutf8Encode 3) c.toNat) :=
  StringView.escapeSymbolLoop_reading h (Lexer.length_le_utf8Text cs)

/-- With the escapes undone, the text of a range is that of the source with each line end as one line
feed just if its carriage returns stand where the lookahead does no harm. -/
theorem wholeLine_restores_iff (before cut after : List Char) :
    (∃ text, wholeLine (utf8Text (before ++ cut ++ after)) (utf8Text before).length
        (utf8Text (before ++ cut)).length = some text ∧
      unescape text = some (mutf8 (utf16Text (lineFeeds cut)))) ↔
    Restorable cut := by
  obtain ⟨es, h⟩ := exists_reading cut
  rw [← h.eq_iff, wholeLine, substr_utf8Text, escapeSymbol_reading h]
  constructor
  · rintro ⟨text, htext, hunescape⟩
    cases htext
    rw [unescape_flatMap h.return_not_mem] at hunescape
    exact utf16Text_injective (mutf8_injective (Option.some.inj hunescape))
  · intro heq
    exact ⟨_, rfl, by rw [unescape_flatMap h.return_not_mem, heq]⟩

/-- A line that ends with carriage return and line feed is followed by an empty one. -/
theorem crlf_not_restored :
    ¬ ∃ text, wholeLine (utf8Text ['a', '\r', '\n', 'b']) 0 4 = some text ∧
      unescape text = some (mutf8 (utf16Text (lineFeeds ['a', '\r', '\n', 'b']))) := by
  rintro ⟨text, htext, hunescape⟩
  have hread : wholeLine (utf8Text ['a', '\r', '\n', 'b']) 0 4 =
      some (byte 'a' :: byte '\\' :: byte 'n' :: byte '\\' :: byte 'n' :: [byte 'b']) := by
    decide +kernel
  obtain rfl := Option.some.inj (hread.symm.trans htext)
  exact absurd hunescape (by decide +kernel)

end ArkTs2abc.Es2panda
