import ArkTs2abc.Ts2panda.Base.Util

/-!
# Messages through the pipe

ts2panda writes each JSON text between two dollar signs, with a hash in front of
each dollar sign of the text. ts2abc gets the bytes in pieces, as the pipe hands
them over, and looks for dollar signs that have no hash in front.

## Main definitions

* `Message` — the texts that are written.
* `handleBuffer`, `readFromPipe` — the reader, piece by piece.
* `splitData`, `parseData` — the reader of a whole text.
* `scan` — a reader that goes byte by byte and knows of no pieces.

## Main results

* `readFromPipe_written` — however the bytes are cut, the messages arrive.
-/

namespace ArkTs2abc.Ts2panda

open Unicode

/-! ## Writing -/

/-- `replace(dollarSign, '#$')`. -/
def replaceDollar (text : JsString) : JsString :=
  text.flatMap fun c => if c = unit '$' then [unit '#', unit '$'] else [c]

/-- The JSON texts that are written: the options as they are, all others escaped. -/
inductive Message where
  | escaped (stringified : JsString)
  /-- The text of the options between the braces of the object. -/
  | options (members : JsString)

namespace Message

def json : Message → JsString
  | escaped stringified => escapeUnicode stringified
  | options members => unit '{' :: members ++ [unit '}']

/-- What is written to the pipe, as the stream encodes it. -/
def written (m : Message) : List UInt8 :=
  toUtf8 (unit '$' :: replaceDollar m.json ++ [unit '$'] ++ [unit '\n'])

end Message

/-! ## Reading -/

/-- `ReplaceAllDistinct(str, "#$", "$")`. -/
def replaceAllDistinct : List UInt8 → List UInt8
  | c :: d :: str =>
    if c = byte '#' ∧ d = byte '$' then byte '$' :: replaceAllDistinct str
    else c :: replaceAllDistinct (d :: str)
  | str => str

/-- The bytes from `startPos` up to `endPos`. -/
def substr (buff : List UInt8) (startPos endPos : ℕ) : List UInt8 := (buff.take endPos).drop startPos

def isStartOrEndPosition (idx : ℕ) (buff data : List UInt8) : Bool :=
  if buff[idx]? ≠ some (byte '$') then false
  else if idx = 0 ∧ (data = [] ∨ data.getLast? ≠ some (byte '#')) then true
  else if idx ≠ 0 ∧ buff[idx - 1]? ≠ some (byte '#') then true
  else false

/-- The variables of `ReadFromPipe`. -/
structure Reader (P : Type) where
  isStartDollar : Bool := true
  data : List UInt8 := []
  prog : P

section Read

/-! A program takes the messages one by one; `none` stands for a message that cannot be parsed. -/

variable {P : Type} (parseSmallPieceJson : List UInt8 → P → Option P)

/-- The loop of `HandleBuffer`, for `n` more bytes from `idx` on; with it `startPos`. -/
def handleLoop (buff : List UInt8) : ℕ → ℕ → ℕ → Reader P → Option (ℕ × Reader P)
  | 0, _, startPos, s => some (startPos, s)
  | n + 1, idx, startPos, s =>
    if isStartOrEndPosition idx buff s.data then
      if s.isStartDollar then handleLoop buff n (idx + 1) (idx + 1) { s with isStartDollar := false }
      else do
        let data := replaceAllDistinct (s.data ++ substr buff startPos idx)
        let prog ← parseSmallPieceJson data s.prog
        handleLoop buff n (idx + 1) startPos { prog }
    else handleLoop buff n (idx + 1) startPos s

def handleBuffer (s : Reader P) (buff : List UInt8) : Option (Reader P) := do
  let (startPos, s) ← handleLoop parseSmallPieceJson buff buff.length 0 0 s
  some (if s.isStartDollar then s else { s with data := s.data ++ substr buff startPos buff.length })

/-- Each of `reads` is what one `read` returned. -/
def readFromPipe (reads : List (List UInt8)) (prog : P) : Option P :=
  (reads.foldlM (handleBuffer parseSmallPieceJson) { prog }).map Reader.prog

/-- The loop of `ParseData`, for `n` more bytes from `idx` on. -/
def splitLoop (data : List UInt8) : ℕ → ℕ → ℕ → Bool → P → Option P
  | 0, _, _, _, prog => some prog
  | n + 1, idx, pos, isStartDollar, prog =>
    if data[idx]? = some (byte '$') ∧ (idx = 0 ∨ data[idx - 1]? ≠ some (byte '#')) then
      if isStartDollar then splitLoop data n (idx + 1) (idx + 1) false prog
      else do
        let prog ← parseSmallPieceJson (replaceAllDistinct (substr data pos idx)) prog
        splitLoop data n (idx + 1) pos true prog
    else splitLoop data n (idx + 1) pos isStartDollar prog

def splitData (data : List UInt8) (prog : P) : Option P :=
  splitLoop parseSmallPieceJson data data.length 0 0 true prog

/-- An empty text is an error. -/
def parseData (data : List UInt8) (prog : P) : Option P :=
  if data = [] then none else splitData parseSmallPieceJson data prog

/-! ## A reader of single bytes -/

/-- Whether a dollar sign behind what has been read of a message ends it. -/
def closes (message : List UInt8) (b : UInt8) : Bool :=
  b = byte '$' && message.getLast? ≠ some (byte '#')

/-- The message that is being read, if any, after one more byte. -/
def advance : Option (List UInt8) → UInt8 → Option (List UInt8)
  | none, b => if b = byte '$' then some [] else none
  | some message, b => if closes message b then none else some (message ++ [b])

/-- The program after one more byte. -/
def deliver (message : Option (List UInt8)) (b : UInt8) (prog : P) : Option P :=
  match message with
  | none => some prog
  | some message =>
    if closes message b then parseSmallPieceJson (replaceAllDistinct message) prog else some prog

def scan : List UInt8 → Option (List UInt8) → P → Option P
  | [], _, prog => some prog
  | b :: bytes, message, prog => do
    let prog ← deliver parseSmallPieceJson message b prog
    scan bytes (advance message b) prog

end Read

/-- No byte between two messages is a hash. -/
def Clean : Option (List UInt8) → List UInt8 → Prop
  | _, [] => True
  | message, b :: bytes => (message = none → b ≠ byte '#') ∧ Clean (advance message b) bytes

theorem clean_append (message : Option (List UInt8)) (bytes bytes' : List UInt8) :
    Clean message (bytes ++ bytes') ↔
      Clean message bytes ∧ Clean (bytes.foldl advance message) bytes' := by
  induction bytes generalizing message with
  | nil => simp [Clean]
  | cons b bytes ih => simp only [List.cons_append, Clean, List.foldl_cons, ih, and_assoc]

section Scan

variable {P : Type} {parseSmallPieceJson : List UInt8 → P → Option P}

theorem scan_append (bytes bytes' : List UInt8) (message : Option (List UInt8)) (prog : P) :
    scan parseSmallPieceJson (bytes ++ bytes') message prog =
      (scan parseSmallPieceJson bytes message prog).bind
        (scan parseSmallPieceJson bytes' (bytes.foldl advance message)) := by
  induction bytes generalizing message prog with
  | nil => rfl
  | cons b bytes ih =>
    simp only [List.cons_append, scan, List.foldl_cons, Option.bind_eq_bind, ih, Option.bind_assoc]

end Scan

/-! ## Pieces -/

section Substr

variable {buff : List UInt8} {startPos idx : ℕ}

theorem substr_self (buff : List UInt8) (idx : ℕ) : substr buff idx idx = [] := by
  rw [substr, List.drop_eq_nil_iff, List.length_take]
  exact Nat.min_le_left _ _

theorem substr_succ {b : UInt8} (hle : startPos ≤ idx) (hb : buff[idx]? = some b) :
    substr buff startPos (idx + 1) = substr buff startPos idx ++ [b] := by
  have hlt : idx < buff.length := (List.getElem?_eq_some_iff.mp hb).1
  rw [substr, List.take_add_one, hb, Option.toList_some, List.drop_append_of_le_length]
  · rfl
  · rw [List.length_take]
    omega

theorem getLast?_substr (hlt : startPos < idx) (hle : idx ≤ buff.length) :
    (substr buff startPos idx).getLast? = buff[idx - 1]? := by
  obtain ⟨i, rfl⟩ : ∃ i, idx = i + 1 := ⟨idx - 1, by omega⟩
  have hb : buff[i]? = some buff[i] := List.getElem?_eq_getElem (by omega)
  rw [substr_succ (by omega) hb, List.getLast?_concat, Nat.add_sub_cancel, hb]

end Substr

section Pieces

variable {P : Type} {parseSmallPieceJson : List UInt8 → P → Option P} {buff : List UInt8}

/-- The variables of the loop before byte `idx`, and the message that is being read. -/
inductive Tracks (buff : List UInt8) (idx startPos : ℕ) : Reader P → Option (List UInt8) → Prop where
  | between {prog : P} (hprev : idx ≠ 0 → buff[idx - 1]? ≠ some (byte '#')) :
      Tracks buff idx startPos { prog } none
  | within {data : List UInt8} {prog : P} (hle : startPos ≤ idx)
      (hstart : startPos ≠ 0 → data = [] ∧ buff[startPos - 1]? = some (byte '$')) :
      Tracks buff idx startPos { isStartDollar := false, data, prog }
        (some (data ++ substr buff startPos idx))

/-- The test of the code is the test of the reader of single bytes. -/
theorem Tracks.isStartOrEndPosition_eq {idx startPos : ℕ} {s : Reader P}
    {message : Option (List UInt8)} (h : Tracks buff idx startPos s message) {b : UInt8}
    (hb : buff[idx]? = some b) :
    isStartOrEndPosition idx buff s.data = (match message with
      | none => decide (b = byte '$')
      | some message => closes message b) := by
  have hlt : idx < buff.length := (List.getElem?_eq_some_iff.mp hb).1
  unfold isStartOrEndPosition
  rw [hb]
  by_cases hdollar : b = byte '$'
  · subst hdollar
    cases h with
    | between hprev =>
      by_cases hzero : idx = 0
      · simp [hzero]
      · simp [hzero, hprev hzero]
    | @within data prog hle hstart =>
      have hne : byte '$' ≠ byte '#' := by decide
      rcases Nat.eq_zero_or_pos idx with rfl | hpos
      · obtain rfl : startPos = 0 := by omega
        cases data with
        | nil => simp [closes, substr_self]
        | cons d data => simp [closes, substr_self]
      · rcases Nat.lt_or_ge startPos idx with hbefore | hge
        · have hlast := getLast?_substr hbefore hlt.le
          have hsome : buff[idx - 1]? = some buff[idx - 1] := List.getElem?_eq_getElem (by omega)
          simp only
          rw [closes, List.getLast?_append, hlast, hsome]
          simp [hpos.ne']
        · obtain rfl : startPos = idx := by omega
          obtain ⟨rfl, hprev⟩ := hstart hpos.ne'
          simp [closes, substr_self, hprev, hpos.ne', hne]
  · cases h <;> simp [hdollar, closes]

attribute [simp] advance

/-- The loop does to the program what the reader of single bytes does, and stays in step with it. -/
theorem handleLoop_rel {n idx startPos : ℕ} {s : Reader P} {message : Option (List UInt8)}
    (hn : idx + n = buff.length) (h : Tracks buff idx startPos s message)
    (hclean : Clean message (buff.drop idx)) :
    Option.Rel (fun (r : ℕ × Reader P) prog => r.2.prog = prog ∧
        Tracks buff buff.length r.1 r.2 ((buff.drop idx).foldl advance message))
      (handleLoop parseSmallPieceJson buff n idx startPos s)
      (scan parseSmallPieceJson (buff.drop idx) message s.prog) := by
  induction n generalizing idx startPos s message with
  | zero =>
    obtain rfl : idx = buff.length := hn
    rw [List.drop_length]
    exact .some ⟨rfl, h⟩
  | succ n ih =>
    have hlt : idx < buff.length := by omega
    have hb : buff[idx]? = some buff[idx] := List.getElem?_eq_getElem hlt
    have htest := h.isStartOrEndPosition_eq hb
    rw [List.drop_eq_getElem_cons hlt] at hclean ⊢
    generalize buff[idx] = b at *
    obtain ⟨hhash, hclean⟩ := hclean
    rw [handleLoop, htest, List.foldl_cons, scan]
    have hprev : b ≠ byte '#' → idx + 1 ≠ 0 → buff[idx + 1 - 1]? ≠ some (byte '#') := by
      intro hne _
      rw [Nat.add_sub_cancel, hb]
      exact fun heq => hne (Option.some.inj heq)
    have hnext : idx + 1 + n = buff.length := by omega
    cases h with
    | @between prog _ =>
      by_cases hdollar : b = byte '$'
      · subst hdollar
        have htracks : Tracks buff (idx + 1) (idx + 1)
            { isStartDollar := false, data := [], prog } (some ([] ++ substr buff (idx + 1) (idx + 1))) :=
          .within (Nat.le_refl _) fun _ => ⟨rfl, hb⟩
        rw [substr_self] at htracks
        simpa [deliver] using ih hnext htracks (by simpa using hclean)
      · have htracks : Tracks buff (idx + 1) startPos { prog } none := .between (hprev (hhash rfl))
        simpa [deliver, hdollar] using ih hnext htracks (by simpa [hdollar] using hclean)
    | @within data prog hle hstart =>
      by_cases hcloses : closes (data ++ substr buff startPos idx) b
      · have hne : b ≠ byte '#' := by
          rintro rfl
          simp [closes, byte] at hcloses
        simp only [deliver, advance, hcloses, if_true, Option.bind_eq_bind, Bool.false_eq_true,
          if_false] at hclean ⊢
        cases parseSmallPieceJson (replaceAllDistinct (data ++ substr buff startPos idx)) prog with
        | none => exact .none
        | some prog' =>
          have htracks : Tracks buff (idx + 1) startPos { prog := prog' } none := .between (hprev hne)
          exact ih hnext htracks hclean
      · have htracks : Tracks buff (idx + 1) startPos { isStartDollar := false, data, prog }
            (some (data ++ substr buff startPos (idx + 1))) := .within (by omega) hstart
        rw [substr_succ hle hb, ← List.append_assoc] at htracks
        simp only [deliver, advance, hcloses, Option.bind_eq_bind, Bool.false_eq_true,
          if_false, Option.bind_some] at hclean ⊢
        exact ih hnext htracks hclean

/-- The variables between two reads, and the message that is being read. -/
def Carries (s : Reader P) (message : Option (List UInt8)) : Prop :=
  match message with
  | none => s.isStartDollar = true ∧ s.data = []
  | some message => s.isStartDollar = false ∧ s.data = message

theorem handleBuffer_rel {s : Reader P} {message : Option (List UInt8)} (h : Carries s message)
    (hclean : Clean message buff) :
    Option.Rel (fun (s' : Reader P) prog => s'.prog = prog ∧ Carries s' (buff.foldl advance message))
      (handleBuffer parseSmallPieceJson s buff) (scan parseSmallPieceJson buff message s.prog) := by
  have htracks : Tracks buff 0 0 s message := by
    obtain ⟨isStartDollar, data, prog⟩ := s
    cases message with
    | none =>
      obtain ⟨rfl, rfl⟩ := h
      exact .between fun hne => absurd rfl hne
    | some message =>
      obtain ⟨rfl, rfl⟩ := h
      have hwithin : Tracks buff 0 0 { isStartDollar := false, data, prog }
          (some (data ++ substr buff 0 0)) := .within (Nat.le_refl 0) fun hne => absurd rfl hne
      rwa [substr_self, List.append_nil] at hwithin
  have hloop := @handleLoop_rel P parseSmallPieceJson buff buff.length 0 0 s message (Nat.zero_add _)
    htracks hclean
  rw [List.drop_zero] at hloop
  unfold handleBuffer
  generalize handleLoop parseSmallPieceJson buff buff.length 0 0 s = result at hloop
  generalize scan parseSmallPieceJson buff message s.prog = prog at hloop
  cases hloop with
  | none => exact .none
  | @some r prog hr =>
    obtain ⟨startPos, s'⟩ := r
    obtain ⟨rfl, hend⟩ := hr
    refine .some ?_
    generalize buff.foldl advance message = message' at hend
    cases hend with
    | between _ => exact ⟨rfl, rfl, rfl⟩
    | within _ _ => exact ⟨rfl, rfl, rfl⟩

theorem readFromPipe_eq_scan (reads : List (List UInt8)) (prog : P) (hclean : Clean none reads.flatten) :
    readFromPipe parseSmallPieceJson reads prog =
      scan parseSmallPieceJson reads.flatten none prog := by
  have hrun (reads : List (List UInt8)) (s : Reader P) (message : Option (List UInt8))
      (h : Carries s message) (hclean : Clean message reads.flatten) :
      (reads.foldlM (handleBuffer parseSmallPieceJson) s).map Reader.prog =
        scan parseSmallPieceJson reads.flatten message s.prog := by
    induction reads generalizing s message with
    | nil => rfl
    | cons buff reads ih =>
      rw [List.flatten_cons, clean_append] at hclean
      rw [List.flatten_cons, scan_append, List.foldlM_cons, Option.bind_eq_bind]
      have hbuff := @handleBuffer_rel P parseSmallPieceJson buff s message h hclean.1
      generalize handleBuffer parseSmallPieceJson s buff = result at hbuff
      generalize scan parseSmallPieceJson buff message s.prog = prog at hbuff
      cases hbuff with
      | none => rfl
      | @some s' prog' hs' =>
        obtain ⟨rfl, hcarries⟩ := hs'
        exact ih s' _ hcarries hclean.2
  exact hrun reads { prog } none ⟨rfl, rfl⟩ hclean

/-- In the loop over a whole text nothing is carried over. -/
theorem splitLoop_eq_handleLoop (n idx pos : ℕ) (isStartDollar : Bool) (prog : P) :
    splitLoop parseSmallPieceJson buff n idx pos isStartDollar prog =
      (handleLoop parseSmallPieceJson buff n idx pos { isStartDollar, prog }).map (·.2.prog) := by
  have htest (idx : ℕ) : isStartOrEndPosition idx buff [] = true ↔
      buff[idx]? = some (byte '$') ∧ (idx = 0 ∨ buff[idx - 1]? ≠ some (byte '#')) := by
    unfold isStartOrEndPosition
    by_cases hdollar : buff[idx]? = some (byte '$')
    · by_cases hzero : idx = 0
      · simp [hzero]
      · simp [hdollar, hzero]
    · simp [hdollar]
  induction n generalizing idx pos isStartDollar prog with
  | zero => rfl
  | succ n ih =>
    rw [splitLoop, handleLoop]
    by_cases hpos : isStartOrEndPosition idx buff [] = true
    · rw [if_pos ((htest idx).mp hpos), if_pos hpos]
      cases isStartDollar with
      | true => exact ih _ _ _ _
      | false =>
        simp only [Bool.false_eq_true, if_false, List.nil_append, Option.bind_eq_bind,
          Option.map_bind, Function.comp_def]
        congr 1
        funext prog'
        exact ih _ _ _ _
    · rw [if_neg (fun h => hpos ((htest idx).mpr h)), if_neg hpos]
      exact ih _ _ _ _

theorem splitData_eq_scan (data : List UInt8) (prog : P) (hclean : Clean none data) :
    splitData parseSmallPieceJson data prog = scan parseSmallPieceJson data none prog := by
  have htracks : Tracks data 0 0 { prog } none := .between fun hne => absurd rfl hne
  have hloop := @handleLoop_rel P parseSmallPieceJson data data.length 0 0 { prog } none
    (Nat.zero_add _) htracks hclean
  rw [List.drop_zero] at hloop
  unfold splitData
  rw [splitLoop_eq_handleLoop]
  generalize handleLoop parseSmallPieceJson data data.length 0 0 { prog } = result at hloop
  generalize scan parseSmallPieceJson data none prog = prog' at hloop
  cases hloop with
  | none => rfl
  | some hr => exact congrArg some hr.1

end Pieces

/-! ## Messages -/

/-- The escape of dollar signs, on the bytes. -/
def escapeBytes (bytes : List UInt8) : List UInt8 :=
  bytes.flatMap fun b => if b = byte '$' then [byte '#', byte '$'] else [b]

theorem codePoints_replaceDollar (us : JsString) :
    codePoints (replaceDollar us) =
      (codePoints us).flatMap fun cp => if cp = 0x24 then [0x23, 0x24] else [cp] := by
  have hunit (u : UInt16) : u = unit '$' ↔ u.toNat = 0x24 := by
    rw [← UInt16.toNat_inj]
    rfl
  fun_induction codePoints us with
  | case1 => rfl
  | case2 u =>
    by_cases hu : u = unit '$'
    · subst hu
      rfl
    · simp [replaceDollar, hu, (hunit u).not.mp hu, codePoints]
  | case3 u v us hpair ih =>
    have hu : ¬ u.toNat = 0x24 := by
      have := hpair.1.1
      omega
    have hv : ¬ v.toNat = 0x24 := by
      have := hpair.2.1
      omega
    have hcp : ¬ ofPair u.toNat v.toNat = 0x24 := by
      have := (ofPair_lt hpair.1 hpair.2).1
      omega
    have hcons : replaceDollar (u :: v :: us) = u :: v :: replaceDollar us := by
      simp [replaceDollar, (hunit u).not.mpr hu, (hunit v).not.mpr hv]
    rw [hcons, codePoints, if_pos hpair, ih, List.flatMap_cons, if_neg hcp]
    rfl
  | case4 u v us hpair ih =>
    rw [List.flatMap_cons, ← ih]
    by_cases hu : u = unit '$'
    · subst hu
      show codePoints (unit '#' :: unit '$' :: replaceDollar (v :: us)) = _
      rw [codePoints_cons (by decide), codePoints_cons (by decide)]
      rfl
    · have hcons : replaceDollar (u :: v :: us) = u :: replaceDollar (v :: us) := by
        simp [replaceDollar, hu]
      rw [hcons, if_neg ((hunit u).not.mp hu), codePoints_cons_of_not_pair]
      · rfl
      · intro w hw
        by_cases hv : v = unit '$'
        · subst hv
          obtain rfl : unit '#' = w := Option.some.inj hw
          exact fun h => absurd h.2 (by decide)
        · have hhead : (replaceDollar (v :: us)).head? = some v := by simp [replaceDollar, hv]
          obtain rfl := Option.some.inj (hhead.symm.trans hw)
          exact hpair

theorem toUtf8_replaceDollar (us : JsString) : toUtf8 (replaceDollar us) = escapeBytes (toUtf8 us) := by
  rw [toUtf8, codePoints_replaceDollar, escapeBytes, toUtf8, List.flatMap_assoc, List.flatMap_assoc]
  refine List.flatMap_congr fun cp hcp => ?_
  have hlt := codePoints_lt hcp
  by_cases hdollar : cp = 0x24
  · subst hdollar
    rfl
  · rw [if_neg hdollar, List.flatMap_cons, List.flatMap_nil, List.append_nil]
    generalize hcp' : (if IsSurrogate cp then 0xFFFD else cp) = cp'
    have hlt' : cp' < 0x110000 := by
      subst hcp'
      split <;> omega
    have hne : cp' ≠ 0x24 := by
      subst hcp'
      split <;> omega
    have hbytes : ∀ b ∈ utf8 cp', (if b = byte '$' then [byte '#', byte '$'] else [b]) = [b] := by
      intro b hb
      refine if_neg fun heq => hne ?_
      subst heq
      exact utf8_of_ascii_mem hlt' hb (by decide)
    rw [List.flatMap_congr hbytes, List.flatMap_singleton']

theorem head?_escapeBytes_ne (bytes : List UInt8) : (escapeBytes bytes).head? ≠ some (byte '$') := by
  cases bytes with
  | nil => exact nofun
  | cons b bytes =>
    by_cases hb : b = byte '$'
    · subst hb
      show some (byte '#') ≠ some (byte '$')
      decide
    · have hhead : (escapeBytes (b :: bytes)).head? = some b := by simp [escapeBytes, hb]
      rw [hhead]
      exact fun heq => hb (Option.some.inj heq)

theorem replaceAllDistinct_escapeBytes (bytes : List UInt8) :
    replaceAllDistinct (escapeBytes bytes) = bytes := by
  induction bytes with
  | nil => rfl
  | cons b bytes ih =>
    by_cases hb : b = byte '$'
    · subst hb
      show replaceAllDistinct (byte '#' :: byte '$' :: escapeBytes bytes) = _
      rw [replaceAllDistinct, if_pos ⟨rfl, rfl⟩, ih]
    · have hcons : escapeBytes (b :: bytes) = b :: escapeBytes bytes := by simp [escapeBytes, hb]
      have hhead := head?_escapeBytes_ne bytes
      rw [hcons]
      cases hrest : escapeBytes bytes with
      | nil =>
        rw [hrest] at ih
        rw [← ih]
        rfl
      | cons d rest =>
        rw [hrest] at hhead ih
        rw [replaceAllDistinct, if_neg fun h => hhead (congrArg some h.2), ih]

theorem scan_cons_of_not_closes {P : Type} {parseSmallPieceJson : List UInt8 → P → Option P}
    {message : List UInt8} {b : UInt8} (h : closes message b = false) (bytes : List UInt8) (prog : P) :
    scan parseSmallPieceJson (b :: bytes) (some message) prog =
      scan parseSmallPieceJson bytes (some (message ++ [b])) prog := by
  simp [scan, deliver, h]

theorem scan_escapeBytes {P : Type} {parseSmallPieceJson : List UInt8 → P → Option P}
    (message bytes rest : List UInt8) (prog : P) :
    scan parseSmallPieceJson (escapeBytes bytes ++ rest) (some message) prog =
      scan parseSmallPieceJson rest (some (message ++ escapeBytes bytes)) prog := by
  induction bytes generalizing message with
  | nil => simp [escapeBytes]
  | cons b bytes ih =>
    by_cases hb : b = byte '$'
    · subst hb
      have hcons : escapeBytes (byte '$' :: bytes) = byte '#' :: byte '$' :: escapeBytes bytes := rfl
      have hhash : closes message (byte '#') = false := by simp [closes, byte]
      have hdollar : closes (message ++ [byte '#']) (byte '$') = false := by simp [closes]
      rw [hcons, List.cons_append, List.cons_append, scan_cons_of_not_closes hhash,
        scan_cons_of_not_closes hdollar, ih]
      simp
    · have hcons : escapeBytes (b :: bytes) = b :: escapeBytes bytes := by simp [escapeBytes, hb]
      have hstep : closes message b = false := by simp [closes, hb]
      rw [hcons, List.cons_append, scan_cons_of_not_closes hstep, ih]
      simp

theorem clean_escapeBytes (message bytes rest : List UInt8) :
    Clean (some message) (escapeBytes bytes ++ rest) ↔
      Clean (some (message ++ escapeBytes bytes)) rest := by
  have hstep {message : List UInt8} {b : UInt8} {rest : List UInt8} (h : closes message b = false) :
      Clean (some message) (b :: rest) ↔ Clean (some (message ++ [b])) rest := by
    simp [Clean, h]
  induction bytes generalizing message with
  | nil => simp [escapeBytes]
  | cons b bytes ih =>
    by_cases hb : b = byte '$'
    · subst hb
      have hcons : escapeBytes (byte '$' :: bytes) = byte '#' :: byte '$' :: escapeBytes bytes := rfl
      have hhash : closes message (byte '#') = false := by simp [closes, byte]
      have hdollar : closes (message ++ [byte '#']) (byte '$') = false := by simp [closes]
      rw [hcons, List.cons_append, List.cons_append, hstep hhash, hstep hdollar]
      refine (ih _).trans ?_
      simp
    · have hcons : escapeBytes (b :: bytes) = b :: escapeBytes bytes := by simp [escapeBytes, hb]
      have hb' : closes message b = false := by simp [closes, hb]
      rw [hcons, List.cons_append, hstep hb']
      refine (ih _).trans ?_
      simp

namespace Message

theorem exists_json_eq (m : Message) :
    ∃ text c, m.json = text ++ [c] ∧ (c = unit '}' ∨ c = unit '\n') := by
  cases m with
  | escaped stringified => exact ⟨escapeLines [] stringified ++ [unit '}'], _, by simp [json, escapeUnicode], .inr rfl⟩
  | options members => exact ⟨unit '{' :: members, _, rfl, .inl rfl⟩

theorem written_eq (m : Message) :
    m.written = byte '$' :: escapeBytes (toUtf8 m.json) ++ [byte '$', byte '\n'] := by
  unfold written
  rw [toUtf8_concat_ascii (by decide), toUtf8_concat_ascii (by decide), toUtf8_cons_ascii (by decide),
    toUtf8_replaceDollar]
  simp [byte, unit]

theorem closes_json (m : Message) : closes (escapeBytes (toUtf8 m.json)) (byte '$') = true := by
  obtain ⟨text, c, heq, hc⟩ := m.exists_json_eq
  have hascii : c.toNat < 0x80 := by rcases hc with rfl | rfl <;> decide
  have hdollar : UInt8.ofNat c.toNat ≠ byte '$' := by rcases hc with rfl | rfl <;> decide
  have hhash : UInt8.ofNat c.toNat ≠ byte '#' := by rcases hc with rfl | rfl <;> decide
  rw [heq, toUtf8_concat_ascii hascii, escapeBytes, List.flatMap_append, List.flatMap_singleton,
    if_neg hdollar]
  simpa [closes] using hhash

theorem scan_written {P : Type} {parseSmallPieceJson : List UInt8 → P → Option P} (m : Message)
    (rest : List UInt8) (prog : P) :
    scan parseSmallPieceJson (m.written ++ rest) none prog =
      (parseSmallPieceJson (toUtf8 m.json) prog).bind (scan parseSmallPieceJson rest none) := by
  have hopen : scan parseSmallPieceJson (m.written ++ rest) none prog =
      scan parseSmallPieceJson (escapeBytes (toUtf8 m.json) ++ byte '$' :: byte '\n' :: rest) (some [])
        prog := by
    rw [written_eq]
    simp [scan, deliver]
  have hfeed : byte '\n' ≠ byte '$' := by decide
  rw [hopen, scan_escapeBytes, List.nil_append, scan, deliver, advance, if_pos m.closes_json,
    if_pos m.closes_json, replaceAllDistinct_escapeBytes]
  simp [scan, deliver, hfeed]

theorem clean_written (m : Message) (rest : List UInt8) :
    Clean none (m.written ++ rest) ↔ Clean none rest := by
  have hopen : Clean none (m.written ++ rest) ↔
      Clean (some []) (escapeBytes (toUtf8 m.json) ++ byte '$' :: byte '\n' :: rest) := by
    have hne : byte '$' ≠ byte '#' := by decide
    rw [written_eq]
    simp [Clean, hne]
  have hfeed : byte '\n' ≠ byte '$' := by decide
  have hfeed' : byte '\n' ≠ byte '#' := by decide
  rw [hopen, clean_escapeBytes, List.nil_append]
  simp [Clean, m.closes_json, hfeed, hfeed']

end Message

section Stream

variable {P : Type} (parseSmallPieceJson : List UInt8 → P → Option P)

/-- The messages one after the other. -/
def parseAll (msgs : List Message) (prog : P) : Option P :=
  msgs.foldlM (fun prog m => parseSmallPieceJson (toUtf8 m.json) prog) prog

theorem scan_stream (msgs : List Message) (prog : P) :
    scan parseSmallPieceJson (msgs.flatMap Message.written) none prog =
      parseAll parseSmallPieceJson msgs prog := by
  induction msgs generalizing prog with
  | nil => rfl
  | cons m msgs ih =>
    rw [List.flatMap_cons, m.scan_written, parseAll, List.foldlM_cons, Option.bind_eq_bind]
    exact congrArg _ (funext ih)

theorem clean_stream (msgs : List Message) : Clean none (msgs.flatMap Message.written) := by
  induction msgs with
  | nil => trivial
  | cons m msgs ih =>
    rw [List.flatMap_cons, m.clean_written]
    exact ih

/-- However the bytes of the messages are cut into reads, the program gets just these messages, in
their order and as they were, and so it does when the whole text is split at once. -/
theorem readFromPipe_written (msgs : List Message) (reads : List (List UInt8)) (prog : P)
    (hreads : reads.flatten = msgs.flatMap Message.written) :
    readFromPipe parseSmallPieceJson reads prog = parseAll parseSmallPieceJson msgs prog ∧
      splitData parseSmallPieceJson (msgs.flatMap Message.written) prog =
        parseAll parseSmallPieceJson msgs prog := by
  have hclean := clean_stream msgs
  constructor
  · rw [readFromPipe_eq_scan reads prog (hreads ▸ hclean), hreads, scan_stream]
  · rw [splitData_eq_scan _ prog hclean, scan_stream]

end Stream

/-- An empty object with a dollar sign in front, cut between the hash and the dollar sign. -/
theorem readFromPipe_written_cut :
    readFromPipe (fun bytes prog => some (prog ++ [bytes]))
        [[byte '$', byte '\x7b', byte '#'], [byte '$', byte '\x7d', byte '$', byte '\n']] [] =
      parseAll (fun bytes prog => some (prog ++ [bytes])) [.options [unit '$']] [] ∧
    splitData (fun bytes prog => some (prog ++ [bytes]))
        ([Message.options [unit '$']].flatMap Message.written) [] =
      parseAll (fun bytes prog => some (prog ++ [bytes])) [.options [unit '$']] [] :=
  readFromPipe_written _ [.options [unit '$']] _ [] (by decide)

end ArkTs2abc.Ts2panda
