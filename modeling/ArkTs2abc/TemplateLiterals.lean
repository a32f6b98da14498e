import ArkTs2abc.Conversions

/-!
# Template literals without a tag

Both compilers add up the chunks and the values of a template literal. Addition converts an object as a value
of any kind, where a template asks for a string, and es2panda takes the chunks as they are written.

## Main definitions

* `TemplateLiteral.evaluate` — the value of ECMAScript.
* `Es2panda.compileTemplate`, `Ts2panda.compileTemplateExpression` — the code.
* `Kind` — what is known of a substitution.

## Main results

* `concatenates_iff` — the literals whose code has the value of ECMAScript.
-/

namespace ArkTs2abc.TemplateLiterals

open StructuredCode Conversions

/-- A chunk as it is written and as it is meant. -/
structure TemplateElement where
  raw : Units
  cooked : Units
  deriving DecidableEq, Repr

/-- Expressions are different nodes of the tree, and stand between the chunks. -/
structure TemplateLiteral where
  quasis : List TemplateElement
  expressions : List ℕ
  length_eq : quasis.length = expressions.length + 1
  nodup : expressions.Nodup

/-- A template has no references. -/
abbrev TemplateWorld := World ℕ Empty

abbrev History := List (Event ℕ Empty)

variable (l : Language) (w : TemplateWorld)

/-! ## The value of a template literal -/

/-- The expressions with the chunks behind them, from a string on. -/
def evaluateSpans (hint : Hint) (text : Units) : List (ℕ × Units) → Evaluation ℕ Empty JsValue
  | [] => pure (.primitive (.string text))
  | (e, chunk) :: spans => do
    let v ← w.act (.evaluate e)
    let p ← w.toPrimitive hint v
    let s ← completion (l.stringOf p)
    evaluateSpans hint (text ++ s ++ chunk) spans

namespace TemplateLiteral

variable (lit : TemplateLiteral)

/-- The first chunk. -/
def head : TemplateElement := lit.quasis.head fun h => by
  have := lit.length_eq
  simp [h] at this

def spans : List (ℕ × TemplateElement) := lit.expressions.zip lit.quasis.tail

/-- `ToString` of each value, between the cooked chunks. -/
def evaluate : Evaluation ℕ Empty JsValue :=
  evaluateSpans l w .string lit.head.cooked (lit.spans.map fun s => (s.1, s.2.cooked))

end TemplateLiteral

/-! ## Code -/

inductive Ins where
  | loadAccumulatorString (s : Units)
  | storeAccumulator (r : ℕ)
  /-- The code of an expression, which keeps the registers in use. -/
  | compile (e : ℕ)
  | add (r : ℕ)

structure Registers where
  acc : JsValue
  reg : ℕ → JsValue

namespace Registers

/-- An expression is user code. -/
def step (r : Registers) : Ins → Evaluation ℕ Empty Registers
  | .loadAccumulatorString s => pure { r with acc := .primitive (.string s) }
  | .storeAccumulator k => pure { r with reg := Function.update r.reg k r.acc }
  | .compile e => do
    let v ← w.act (.evaluate e)
    pure { r with acc := v }
  | .add k => do
    let v ← l.addition w (r.reg k) r.acc
    pure { r with acc := v }

def exec (r : Registers) : List Ins → Evaluation ℕ Empty Registers
  | [] => pure r
  | i :: code => do
    let r ← r.step l w i
    exec r code

end Registers

/-- What is in the accumulator behind the code. -/
def run (code : List Ins) (r : Registers) : Evaluation ℕ Empty JsValue := do
  let r ← r.exec l w code
  pure r.acc

namespace Es2panda

/-- The register `lhs`. -/
def lhs : ℕ := 0

/-- The loop of `TemplateLiteral::Compile`, with the rounds that are left and the iterators. -/
def compileLoop : (total : ℕ) → (isQuais : Bool) → List TemplateElement → List ℕ → List Ins
  | 0, _, _, _ => []
  | total + 1, true, quasi :: quasis, expressions =>
    .storeAccumulator lhs :: .loadAccumulatorString quasi.raw :: .add lhs ::
      compileLoop total false quasis expressions
  | total + 1, false, quasis, element :: expressions =>
    .storeAccumulator lhs :: .compile element :: .add lhs :: compileLoop total true quasis expressions
  | _ + 1, true, [], _ | _ + 1, false, _, [] => []

/-- `TemplateLiteral::Compile`. -/
def compileTemplate (lit : TemplateLiteral) : List Ins :=
  .loadAccumulatorString lit.head.raw ::
    compileLoop (lit.quasis.length + lit.expressions.length - 1) false lit.quasis.tail lit.expressions

end Es2panda

namespace Ts2panda

/-- The temporaries of the template and of its spans. -/
def lrh : ℕ := 0
def spanLrh : ℕ := 1

/-- `compileTemplateSpan`, with the text of the literal. -/
def compileTemplateSpan (span : ℕ) (text : Units) : List Ins :=
  .compile span ::
    if text.length ≠ 0 then [.storeAccumulator spanLrh, .loadAccumulatorString text, .add spanLrh] else []

/-- `compileTemplateExpression`, and `compileNoSubstitutionTemplateLiteral` where there are no spans. -/
def compileTemplateExpression (lit : TemplateLiteral) : List Ins :=
  .loadAccumulatorString lit.head.cooked :: lit.spans.flatMap fun s =>
    .storeAccumulator lrh :: (compileTemplateSpan s.1 s.2.cooked ++ [Ins.add lrh])

end Ts2panda

/-! ## Runs of the code -/

variable {l w}

theorem run_cons (i : Ins) (code : List Ins) (r : Registers) :
    run l w (i :: code) r = r.step l w i >>= fun r => run l w code r := by
  rw [run, Registers.exec, Process.bind_assoc]
  rfl

@[simp] theorem run_nil (r : Registers) (h : History) : run l w [] r h = (.value r.acc, h) := rfl

theorem run_load (s : Units) (code : List Ins) (r : Registers) (h : History) :
    run l w (.loadAccumulatorString s :: code) r h = run l w code { r with acc := .primitive (.string s) } h := by
  rw [run_cons]
  rfl

theorem run_store (k : ℕ) (code : List Ins) (r : Registers) (h : History) :
    run l w (.storeAccumulator k :: code) r h =
      run l w code { r with reg := Function.update r.reg k r.acc } h := by
  rw [run_cons]
  rfl

theorem run_compile (e : ℕ) (code : List Ins) (r : Registers) :
    run l w (.compile e :: code) r = w.act (.evaluate e) >>= fun v => run l w code { r with acc := v } := by
  rw [run_cons, Registers.step, Process.bind_assoc]
  rfl

theorem run_add (k : ℕ) (code : List Ins) (r : Registers) :
    run l w (.add k :: code) r =
      l.addition w (r.reg k) r.acc >>= fun v => run l w code { r with acc := v } := by
  rw [run_cons, Registers.step, Process.bind_assoc]
  rfl

theorem addition_string (a : Units) (v : JsValue) :
    l.addition w (.primitive (.string a)) v = w.toPrimitive .default v >>= fun p =>
      completion (l.stringOf p) >>= fun s => pure (.primitive (.string (a ++ s))) := by
  funext h
  show (w.toPrimitive .default v >>= _) h = (w.toPrimitive .default v >>= _) h
  refine congrArg (fun f => (w.toPrimitive .default v >>= f) h) (funext fun p => ?_)
  funext h'
  rw [Language.sumOf]
  cases l.stringOf p <;> rfl

theorem addition_to_string (v : JsValue) (b : Units) :
    l.addition w v (.primitive (.string b)) = w.toPrimitive .default v >>= fun p =>
      completion (l.stringOf p) >>= fun s => pure (.primitive (.string (s ++ b))) := by
  funext h
  show (w.toPrimitive .default v >>= _) h = (w.toPrimitive .default v >>= _) h
  refine congrArg (fun f => (w.toPrimitive .default v >>= f) h) (funext fun p => ?_)
  funext h'
  cases p with
  | string a | symbol id => rfl
  | undefined | null | boolean b | number bits | bigint i => rfl

theorem run_add_value {r : Registers} {k e : ℕ} {a : Units} (hr : r.acc = .primitive (.string a))
    (code : List Ins) :
    run l w (.storeAccumulator k :: .compile e :: .add k :: code) r =
      w.act (.evaluate e) >>= fun v => w.toPrimitive .default v >>= fun p => completion (l.stringOf p) >>= fun s =>
        run l w code ⟨.primitive (.string (a ++ s)), Function.update r.reg k r.acc⟩ := by
  funext h
  rw [run_store, run_compile]
  refine congrArg (fun f => (w.act (.evaluate e) >>= f) h) (funext fun v => ?_)
  simp only [run_add, Function.update_self, hr, addition_string, Process.bind_assoc]
  rfl

theorem run_add_chunk {r : Registers} {k : ℕ} {a : Units} (hr : r.acc = .primitive (.string a)) (chunk : Units)
    (code : List Ins) :
    run l w (.storeAccumulator k :: .loadAccumulatorString chunk :: .add k :: code) r =
      run l w code ⟨.primitive (.string (a ++ chunk)), Function.update r.reg k r.acc⟩ := by
  funext h
  rw [run_store, run_load, run_add]
  simp only [Function.update_self, hr, addition_string, Process.bind_assoc]
  rfl

namespace Es2panda

theorem run_compileLoop (es : List ℕ) (quasis : List TemplateElement) (hlength : quasis.length = es.length)
    {r : Registers} {a : Units} (hr : r.acc = .primitive (.string a)) :
    run l w (compileLoop (es.length + es.length) false quasis es) r =
      evaluateSpans l w .default a ((es.zip quasis).map fun s => (s.1, s.2.raw)) := by
  induction es generalizing quasis r a with
  | nil =>
    funext h
    show run l w [] r h = _
    rw [run_nil, hr]
    rfl
  | cons e es ih =>
    obtain ⟨quasi, quasis, rfl⟩ := List.exists_cons_of_length_eq_add_one hlength
    have htotal : (e :: es).length + (e :: es).length = es.length + es.length + 1 + 1 := by
      simp only [List.length_cons]
      omega
    rw [htotal, compileLoop, compileLoop, run_add_value hr]
    funext h
    refine congrArg (fun f => (w.act (.evaluate e) >>= f) h) (funext fun v => ?_)
    refine congrArg (w.toPrimitive .default v >>= ·) (funext fun p => ?_)
    refine congrArg (completion (l.stringOf p) >>= ·) (funext fun s => ?_)
    rw [run_add_chunk rfl, ih quasis (by simpa using hlength) rfl]
    rfl

theorem run_compileTemplate (lit : TemplateLiteral) (r : Registers) :
    run l w (compileTemplate lit) r =
      evaluateSpans l w .default lit.head.raw (lit.spans.map fun s => (s.1, s.2.raw)) := by
  funext h
  have htotal : lit.quasis.length + lit.expressions.length - 1 =
      lit.expressions.length + lit.expressions.length := by
    have := lit.length_eq
    omega
  rw [compileTemplate, run_load, htotal, run_compileLoop _ _ (by simp [lit.length_eq]) rfl]
  rfl

end Es2panda

namespace Ts2panda

/-- A span adds a value and a chunk. -/
theorem run_span {r : Registers} {a : Units} (hr : r.acc = .primitive (.string a)) (e : ℕ) (text : Units)
    (code : List Ins) {F : Units → Evaluation ℕ Empty JsValue}
    (hF : ∀ (r : Registers) b, r.acc = .primitive (.string b) → run l w code r = F b) :
    run l w (Ins.storeAccumulator lrh :: (compileTemplateSpan e text ++ [Ins.add lrh]) ++ code) r =
      w.act (.evaluate e) >>= fun v => w.toPrimitive .default v >>= fun p => completion (l.stringOf p) >>= fun s =>
        F (a ++ s ++ text) := by
  funext h
  rw [compileTemplateSpan, List.cons_append, run_store, List.cons_append, List.cons_append, run_compile]
  refine congrArg (fun f => (w.act (.evaluate e) >>= f) h) (funext fun v => ?_)
  split
  next htext =>
    simp only [List.cons_append, List.nil_append]
    funext h
    rw [run_store, run_load, run_add]
    simp only [Function.update_self, addition_to_string, Process.bind_assoc]
    refine congrArg (fun f => (w.toPrimitive .default v >>= f) h) (funext fun p => ?_)
    refine congrArg (completion (l.stringOf p) >>= ·) (funext fun s => ?_)
    funext h
    have hlhs : Function.update (Function.update r.reg lrh r.acc) spanLrh v lrh = .primitive (.string a) := by
      rw [Function.update_of_ne (by decide), Function.update_self, hr]
    show run l w (.add lrh :: code) _ h = _
    rw [run_add]
    simp only [hlhs, addition_string]
    show run l w code _ h = _
    rw [hF _ (a ++ (s ++ text)) rfl, List.append_assoc]
  next htext =>
    have hnil : text = [] := by simpa using htext
    subst hnil
    simp only [List.nil_append, List.cons_append]
    rw [run_add]
    simp only [Function.update_self, hr, addition_string, Process.bind_assoc]
    refine congrArg (w.toPrimitive .default v >>= ·) (funext fun p => ?_)
    refine congrArg (completion (l.stringOf p) >>= ·) (funext fun s => ?_)
    funext h
    rw [List.append_nil]
    exact congrFun (hF _ _ rfl) h

theorem run_spans (spans : List (ℕ × TemplateElement)) {r : Registers} {a : Units}
    (hr : r.acc = .primitive (.string a)) :
    run l w (spans.flatMap fun s => .storeAccumulator lrh :: (compileTemplateSpan s.1 s.2.cooked ++ [Ins.add lrh])) r =
      evaluateSpans l w .default a (spans.map fun s => (s.1, s.2.cooked)) := by
  induction spans generalizing r a with
  | nil =>
    funext h
    show run l w [] r h = _
    rw [run_nil, hr]
    rfl
  | cons s spans ih =>
    rw [List.flatMap_cons, run_span hr s.1 s.2.cooked _ fun r b hb => ih hb]
    rfl

theorem run_compileTemplateExpression (lit : TemplateLiteral) (r : Registers) :
    run l w (compileTemplateExpression lit) r =
      evaluateSpans l w .default lit.head.cooked (lit.spans.map fun s => (s.1, s.2.cooked)) := by
  funext h
  rw [compileTemplateExpression, run_load, run_spans _ rfl]

end Ts2panda

/-! ## When the hint and the chunks make no difference -/

/-- What is known of a substitution: whether it throws, and what it is converted to a string by. -/
inductive Kind where
  | throws
  | object
  | symbol
  | text
  deriving DecidableEq, Repr

namespace Kind

def of : Except JsValue JsValue → Kind
  | .error _ => throws
  | .ok (.object _) => object
  | .ok (.primitive (.symbol _)) => symbol
  | .ok (.primitive _) => text

theorem of_primitive {p : Primitive} (h : ∀ id, p ≠ .symbol id) : of (.ok (.primitive p)) = text := by
  cases p with
  | symbol id => exact absurd rfl (h id)
  | undefined | null | boolean b | number bits | bigint i | string units => rfl

/-- Nothing behind the substitution is evaluated. -/
def Stops (kind : Kind) : Prop := kind = throws ∨ kind = symbol

end Kind

/-- The substitutions are of these kinds. -/
def OfKind (kind : ℕ → Kind) (w : TemplateWorld) (es : List ℕ) : Prop :=
  ∀ e ∈ es, ∀ h, Kind.of (w.answer (h ++ [Event.evaluate e])) = kind e

/-- No object is converted. -/
def NoObject (kind : ℕ → Kind) (es : List ℕ) : Prop :=
  ∀ pre e post, es = pre ++ e :: post → kind e = .object → ∃ e' ∈ pre, (kind e').Stops

/-- All substitutions are converted. -/
def AllText (kind : ℕ → Kind) (es : List ℕ) : Prop := ∀ e ∈ es, ¬ (kind e).Stops

theorem noObject_cons {kind : ℕ → Kind} {e : ℕ} {es : List ℕ} :
    NoObject kind (e :: es) ↔ kind e ≠ .object ∧ ((kind e).Stops ∨ NoObject kind es) := by
  constructor
  · intro h
    have hhead : kind e ≠ .object := by
      intro hobject
      obtain ⟨e', he', -⟩ := h [] e es rfl hobject
      cases he'
    refine ⟨hhead, or_iff_not_imp_left.mpr fun hstops => ?_⟩
    rintro pre e' post rfl hobject
    obtain ⟨e'', he'', hs⟩ := h (e :: pre) e' post rfl hobject
    rcases List.mem_cons.mp he'' with rfl | hmem
    · exact absurd hs hstops
    · exact ⟨e'', hmem, hs⟩
  · rintro ⟨hhead, htail⟩ pre e' post heq hobject
    cases pre with
    | nil =>
      cases heq
      exact absurd hobject hhead
    | cons e'' pre =>
      cases heq
      rcases htail with hstops | htail
      · exact ⟨e, List.mem_cons_self, hstops⟩
      · obtain ⟨e'', he'', hs⟩ := htail pre e' post rfl hobject
        exact ⟨e'', List.mem_cons_of_mem _ he'', hs⟩

theorem eq_text_of_noObject {kind : ℕ → Kind} {es : List ℕ} (h : NoObject kind es)
    (hall : AllText kind es) : ∀ e ∈ es, kind e = .text := by
  intro e he
  have hstops := hall e he
  have hobject : kind e ≠ .object := by
    intro hobject
    obtain ⟨pre, post, rfl⟩ := List.append_of_mem he
    obtain ⟨e', he', hs⟩ := h pre e post rfl hobject
    exact hall e' (List.mem_append_left _ he') hs
  cases hkind : kind e <;> simp_all [Kind.Stops]

/-- A substitution that is no object is converted without user code. -/
theorem evaluateSpans_cons {e : ℕ} {kind : Kind} {h : History}
    (hkind : Kind.of (w.answer (h ++ [Event.evaluate e])) = kind) (hobject : kind ≠ .object) :
    (kind.Stops ∧ ∃ x, ∀ hint text chunk spans,
        evaluateSpans l w hint text ((e, chunk) :: spans) h = (.thrown x, h ++ [Event.evaluate e])) ∨
      (kind = .text ∧ ∃ s, ∀ hint text chunk spans,
        evaluateSpans l w hint text ((e, chunk) :: spans) h =
          evaluateSpans l w hint (text ++ s ++ chunk) spans (h ++ [Event.evaluate e])) := by
  have hstep : ∀ v, w.answer (h ++ [Event.evaluate e]) = .ok v → ∀ hint text chunk spans,
      evaluateSpans l w hint text ((e, chunk) :: spans) h =
        (w.toPrimitive hint v >>= fun p => completion (l.stringOf p) >>= fun s =>
          evaluateSpans l w hint (text ++ s ++ chunk) spans) (h ++ [Event.evaluate e]) :=
    fun v hv hint text chunk spans => perform_bind_ok hv _
  cases hanswer : w.answer (h ++ [Event.evaluate e]) with
  | error x =>
    rw [hanswer] at hkind
    subst hkind
    exact .inl ⟨.inl rfl, x, fun hint text chunk spans => perform_bind_error hanswer _⟩
  | ok v =>
    rw [hanswer] at hkind
    cases v with
    | object id => exact absurd hkind.symm hobject
    | primitive p =>
      rcases l.stringOf_cases p with ⟨id, rfl⟩ | ⟨hsymbol, s, hs⟩
      · subst hkind
        refine .inl ⟨.inr rfl, l.typeError, fun hint text chunk spans => ?_⟩
        rw [hstep _ hanswer]
        rfl
      · rw [Kind.of_primitive hsymbol] at hkind
        refine .inr ⟨hkind.symm, s, fun hint text chunk spans => ?_⟩
        rw [hstep _ hanswer]
        show (completion (l.stringOf p) >>= _) _ = _
        rw [hs]
        rfl

/-- Without objects the hint makes no difference. Nor do the chunks, where a substitution stops the
evaluation. -/
theorem evaluateSpans_congr {kind : ℕ → Kind} {hint hint' : Hint} {xs ys : List (ℕ × Units)} {a b : Units}
    (hes : xs.map Prod.fst = ys.map Prod.fst) (hkind : OfKind kind w (xs.map Prod.fst))
    (hobject : NoObject kind (xs.map Prod.fst))
    (htext : AllText kind (xs.map Prod.fst) → a = b ∧ xs = ys) (h : History) :
    evaluateSpans l w hint a xs h = evaluateSpans l w hint' b ys h := by
  induction xs generalizing ys a b h with
  | nil =>
    obtain ⟨rfl, rfl⟩ := htext (by simp [AllText])
    rfl
  | cons x xs ih =>
    obtain ⟨e, chunk⟩ := x
    obtain ⟨y, ys, rfl⟩ : ∃ y ys', ys = y :: ys' := by
      cases ys with
      | nil => simp at hes
      | cons y ys => exact ⟨y, ys, rfl⟩
    obtain ⟨e', chunk'⟩ := y
    rw [List.map_cons, List.map_cons, List.cons.injEq] at hes
    obtain ⟨rfl, hes⟩ := hes
    rw [List.map_cons] at hkind hobject htext
    obtain ⟨hhead, htail⟩ := noObject_cons.mp hobject
    have hkind' := List.forall_mem_cons.mp hkind
    rcases evaluateSpans_cons (hkind'.1 h) hhead with ⟨hstops, x, hx⟩ | ⟨htextKind, s, hs⟩
    · rw [hx, hx]
    · rw [hs, hs]
      have hnot : ¬ (kind e).Stops := by
        rw [htextKind]
        simp [Kind.Stops]
      refine ih hes hkind'.2 (htail.resolve_left hnot) (fun hall => ?_) _
      obtain ⟨rfl, heq⟩ := htext (List.forall_mem_cons.mpr ⟨hnot, hall⟩)
      cases heq
      exact ⟨rfl, rfl⟩

/-! ## When they do -/

/-- The text of chunks and strings. -/
def interleave (f : ℕ → Units) (a : Units) : List (ℕ × Units) → Units
  | [] => a
  | (e, chunk) :: spans => a ++ f e ++ interleave f chunk spans

theorem interleave_congr {f g : ℕ → Units} {spans : List (ℕ × Units)}
    (h : ∀ e ∈ spans.map Prod.fst, f e = g e) (a : Units) : interleave f a spans = interleave g a spans := by
  induction spans generalizing a with
  | nil => rfl
  | cons s spans ih =>
    obtain ⟨e, chunk⟩ := s
    rw [List.map_cons, List.forall_mem_cons] at h
    rw [interleave, interleave, h.1, ih h.2]

theorem eq_of_append_eq {a b r t : Units} (h : ∀ s : Units, a ++ s ++ r = b ++ s ++ t) : a = b := by
  have hnil := h []
  rw [List.append_nil, List.append_nil] at hnil
  -- the first unit behind the shorter one is not any unit
  have hshort : ∀ {a b r t : Units} (c : UInt16) (d : Units), b = a ++ c :: d →
      (∀ s : Units, a ++ s ++ r = b ++ s ++ t) → False := by
    rintro a b r t c d rfl h
    have hunit := h [c + 1]
    simp only [List.append_assoc, List.append_cancel_left_eq, List.cons_append, List.nil_append,
      List.cons.injEq] at hunit
    have hne : c + 1 ≠ c := by
      intro heq
      have htoNat := congrArg UInt16.toNat heq
      have hlt := UInt16.toNat_lt c
      rw [UInt16.toNat_add] at htoNat
      simp at htoNat
      omega
    exact hne hunit.1
  rcases List.append_eq_append_iff.mp hnil with ⟨d, rfl, -⟩ | ⟨d, rfl, -⟩
  · cases d with
    | nil => simp
    | cons c d => exact (hshort c d rfl h).elim
  · cases d with
    | nil => simp
    | cons c d => exact (hshort c d rfl fun s => (h s).symm).elim

/-- The chunks are known by the texts with all strings between them. -/
theorem eq_of_interleave_eq {xs ys : List (ℕ × Units)} (hes : xs.map Prod.fst = ys.map Prod.fst)
    (hnodup : (xs.map Prod.fst).Nodup) {a b : Units}
    (h : ∀ f, interleave f a xs = interleave f b ys) : a = b ∧ xs = ys := by
  induction xs generalizing ys a b with
  | nil =>
    have hys : ys = [] := by simpa using hes.symm
    subst hys
    exact ⟨h fun _ => [], rfl⟩
  | cons x xs ih =>
    obtain ⟨e, chunk⟩ := x
    obtain ⟨y, ys, rfl⟩ : ∃ y ys', ys = y :: ys' := by
      cases ys with
      | nil => simp at hes
      | cons y ys => exact ⟨y, ys, rfl⟩
    obtain ⟨e', chunk'⟩ := y
    rw [List.map_cons, List.map_cons, List.cons.injEq] at hes
    obtain ⟨rfl, hes⟩ := hes
    rw [List.map_cons, List.nodup_cons] at hnodup
    have hfresh : ∀ (f : ℕ → Units) (s c : Units) (zs : List (ℕ × Units)), zs.map Prod.fst = xs.map Prod.fst →
        interleave (Function.update f e s) c zs = interleave f c zs := by
      intro f s c zs hzs
      refine interleave_congr (fun e' he' => ?_) c
      have hne : e' ≠ e := by
        rintro rfl
        exact hnodup.1 (hzs ▸ he')
      exact Function.update_of_ne hne ..
    have hab : a = b := by
      refine eq_of_append_eq (r := interleave (fun _ => []) chunk xs) (t := interleave (fun _ => []) chunk' ys)
        fun s => ?_
      have hs := h (Function.update (fun _ => ([] : Units)) e s)
      simp only [interleave, Function.update_self] at hs
      rwa [hfresh _ _ _ _ rfl, hfresh _ _ _ _ hes.symm] at hs
    subst hab
    have htail : chunk = chunk' ∧ xs = ys := by
      refine ih hes hnodup.2 fun f => ?_
      have hf := h f
      simp only [interleave, List.append_assoc, List.append_cancel_left_eq] at hf
      exact hf
    rw [htail.1, htail.2]
    exact ⟨rfl, rfl⟩

theorem evaluateSpans_text {f : ℕ → Units} {hint : Hint} {spans : List (ℕ × Units)}
    (hw : ∀ e ∈ spans.map Prod.fst, ∀ h, w.answer (h ++ [Event.evaluate e]) = .ok (.primitive (.string (f e))))
    (a : Units) (h : History) :
    (evaluateSpans l w hint a spans h).1 = .value (.primitive (.string (interleave f a spans))) := by
  induction spans generalizing a h with
  | nil => rfl
  | cons s spans ih =>
    obtain ⟨e, chunk⟩ := s
    rw [List.map_cons, List.forall_mem_cons] at hw
    have hstep : evaluateSpans l w hint a ((e, chunk) :: spans) h =
        evaluateSpans l w hint (a ++ f e ++ chunk) spans (h ++ [Event.evaluate e]) :=
      perform_bind_ok (hw.1 h) _
    rw [hstep, ih hw.2, interleave]
    have hassoc : ∀ (b : Units) zs, interleave f (b ++ chunk) zs = b ++ interleave f chunk zs := by
      intro b zs
      cases zs <;> simp [interleave]
    rw [hassoc]

theorem evaluateSpans_induction {P : History → Prop} {hint : Hint}
    (hevaluate : ∀ h e, P h → P (h ++ [Event.evaluate e]))
    (hconvert : ∀ h id, P h → P (h ++ [.toPrimitive hint id])) (spans : List (ℕ × Units)) (a : Units)
    {h : History} (hh : P h) : P (evaluateSpans l w hint a spans h).2 := by
  induction spans generalizing a h with
  | nil => exact hh
  | cons s spans ih =>
    have hcompletion : ∀ {α : Type} (c : Except JsValue α) (h : History), P h →
        P ((completion c : Evaluation ℕ Empty α) h).2 := by
      intro α c h hh
      cases c <;> exact hh
    refine Process.bind_induction (hcompletion _ _ (hevaluate h s.1 hh)) fun v h hh => ?_
    refine Process.bind_induction ?_ fun p h hh => ?_
    · cases v with
      | primitive p => exact hh
      | object id => exact hcompletion _ _ (hconvert h id hh)
    · exact Process.bind_induction (hcompletion _ _ hh) fun s h hh => ih _ hh

/-- An object is converted if nothing stops the evaluation before. -/
theorem exists_conversion {kind : ℕ → Kind} {hint : Hint} {spans : List (ℕ × Units)}
    (hkind : OfKind kind w (spans.map Prod.fst)) (hobject : ¬ NoObject kind (spans.map Prod.fst)) (a : Units)
    (h : History) : ∃ id, .toPrimitive hint id ∈ (evaluateSpans l w hint a spans h).2 := by
  induction spans generalizing a h with
  | nil =>
    refine absurd (fun pre e post heq => ?_) hobject
    simp at heq
  | cons s spans ih =>
    obtain ⟨e, chunk⟩ := s
    rw [List.map_cons] at hkind hobject
    have hkind' := List.forall_mem_cons.mp hkind
    by_cases hhead : kind e = .object
    · have hanswer := hkind'.1 h
      rw [hhead] at hanswer
      obtain ⟨id, hid⟩ : ∃ id, w.answer (h ++ [Event.evaluate e]) = .ok (.object id) := by
        cases hv : w.answer (h ++ [Event.evaluate e]) with
        | error x =>
          rw [hv] at hanswer
          cases hanswer
        | ok v =>
          cases v with
          | object id => exact ⟨id, rfl⟩
          | primitive p =>
            rw [hv] at hanswer
            cases p <;> cases hanswer
      refine ⟨id, ?_⟩
      have hstep : evaluateSpans l w hint a ((e, chunk) :: spans) h =
          (perform w.primitive (.toPrimitive hint id) >>= fun p => completion (l.stringOf p) >>= fun s =>
            evaluateSpans l w hint (a ++ s ++ chunk) spans) (h ++ [Event.evaluate e]) := perform_bind_ok hid _
      rw [hstep]
      have hstays : ∀ h : History, .toPrimitive hint id ∈ h → ∀ p,
          .toPrimitive hint id ∈ ((completion (l.stringOf p) >>= fun s =>
            evaluateSpans l w hint (a ++ s ++ chunk) spans) h).2 := by
        intro h hh p
        refine @Process.bind_induction _ _ _ _ _ _ h (fun h => .toPrimitive hint id ∈ h) ?_ fun s h hh => ?_
        · cases l.stringOf p <;> exact hh
        · exact @evaluateSpans_induction _ _ (fun h => .toPrimitive hint id ∈ h) _
            (fun h e hh => List.mem_append_left _ hh) (fun h id' hh => List.mem_append_left _ hh) spans _ _ hh
      cases hp : w.primitive (h ++ [Event.evaluate e] ++ [.toPrimitive hint id]) with
      | error x =>
        rw [perform_bind_error hp]
        simp
      | ok p =>
        rw [perform_bind_ok hp]
        exact hstays _ (by simp) p
    · have hrest : ¬ (kind e).Stops ∧ ¬ NoObject kind (spans.map Prod.fst) := by
        rw [noObject_cons] at hobject
        tauto
      rcases evaluateSpans_cons (hkind'.1 h) hhead with ⟨hstops, -⟩ | ⟨-, s, hs⟩
      · exact absurd hstops hrest.1
      · rw [hs]
        exact ih hkind'.2 hrest.2 _ _

/-! ## The code of the compilers -/

/-- With any user code that answers so, the code evaluates the same expressions as ECMAScript and leaves the
same value in the accumulator, or throws the same. -/
def Concatenates (code : List Ins) (lit : TemplateLiteral) (kind : ℕ → Kind) : Prop :=
  ∀ l w, OfKind kind w lit.expressions → ∀ r, run l w code r [] = lit.evaluate l w []

/-- User code whose objects are converted to the empty string. -/
def steadyWorld (kind : ℕ → Kind) (f : ℕ → Units) : TemplateWorld where
  answer h :=
    match h.getLast? with
    | some (.evaluate e) =>
      match kind e with
      | .throws => .error (.object 0)
      | .object => .ok (.object e)
      | .symbol => .ok (.primitive (.symbol 0))
      | .text => .ok (.primitive (.string (f e)))
    | some (.toPrimitive _ _) | some (.getValue _) | some (.putValue _ _) | none => .ok (.primitive .undefined)
  primitive _ := .ok (.string [])

theorem ofKind_steadyWorld (kind : ℕ → Kind) (f : ℕ → Units) (es : List ℕ) :
    OfKind kind (steadyWorld kind f) es := by
  intro e _ h
  simp only [steadyWorld, List.getLast?_append, List.getLast?_singleton, Option.some_or]
  cases kind e <;> rfl

/-- A language that does not convert anything. -/
def someLanguage : Language where
  text _ := []
  number _ := 0
  increment x := x
  decrement x := x
  sum p _ := .ok p
  typeError := .object 0
  referenceError := .object 0

namespace TemplateLiteral

variable (lit : TemplateLiteral)

theorem length_tail : lit.quasis.tail.length = lit.expressions.length := by
  simp [lit.length_eq]

theorem map_fst_spans (f : TemplateElement → Units) :
    (lit.spans.map fun s => (s.1, f s.2)).map Prod.fst = lit.expressions := by
  rw [List.map_map]
  exact List.map_fst_zip (Nat.le_of_eq lit.length_tail.symm)

theorem head_cons_tail : lit.head :: lit.quasis.tail = lit.quasis := by
  rw [head]
  exact List.cons_head_tail ..

theorem raw_eq_cooked_iff : (∀ q ∈ lit.quasis, q.raw = q.cooked) ↔
    lit.head.raw = lit.head.cooked ∧
      (lit.spans.map fun s => (s.1, s.2.raw)) = lit.spans.map fun s => (s.1, s.2.cooked) := by
  rw [← lit.head_cons_tail, List.forall_mem_cons]
  refine and_congr_right fun _ => ?_
  rw [List.map_inj_left]
  have hsnd : lit.spans.map Prod.snd = lit.quasis.tail := List.map_snd_zip (Nat.le_of_eq lit.length_tail)
  rw [← hsnd, List.forall_mem_map]
  simp

end TemplateLiteral

variable {lit : TemplateLiteral} {kind : ℕ → Kind} {code : List Ins} {chunk : TemplateElement → Units}

/-- Code that adds up values and chunks has the value of ECMAScript just if no object is converted, and the
chunks are the cooked ones where all values are converted. -/
theorem concatenates_of_run (hcode : ∀ l w r, run l w code r =
      evaluateSpans l w .default (chunk lit.head) (lit.spans.map fun s => (s.1, chunk s.2))) :
    Concatenates code lit kind ↔ NoObject kind lit.expressions ∧ (AllText kind lit.expressions →
      chunk lit.head = lit.head.cooked ∧
        (lit.spans.map fun s => (s.1, chunk s.2)) = lit.spans.map fun s => (s.1, s.2.cooked)) := by
  have hchunk := lit.map_fst_spans chunk
  have hcooked := lit.map_fst_spans TemplateElement.cooked
  constructor
  · intro h
    have hobject : NoObject kind lit.expressions := by
      by_contra hobject
      -- the hint is seen by an object
      have hw := ofKind_steadyWorld kind (fun _ => []) lit.expressions
      have hrun := h someLanguage _ hw ⟨.object 0, fun _ => .object 0⟩
      rw [hcode] at hrun
      obtain ⟨id, hid⟩ := @exists_conversion someLanguage _ kind .default _
        (hchunk.symm ▸ hw) (hchunk.symm ▸ hobject) (chunk lit.head) []
      rw [hrun] at hid
      have hstring := @evaluateSpans_induction someLanguage (steadyWorld kind fun _ => [])
        (fun h => ∀ id, .toPrimitive .default id ∉ h) .string
        (fun h e hh id => by simpa using hh id) (fun h id' hh id => by simpa using hh id)
        (lit.spans.map fun s => (s.1, s.2.cooked)) lit.head.cooked [] (by simp)
      exact hstring id hid
    refine ⟨hobject, fun hall => ?_⟩
    have htext := eq_text_of_noObject hobject hall
    refine eq_of_interleave_eq (hchunk.trans hcooked.symm) (hchunk.symm ▸ lit.nodup) fun f => ?_
    have hw := ofKind_steadyWorld kind f lit.expressions
    have hrun := congrArg Prod.fst (h someLanguage _ hw ⟨.object 0, fun _ => .object 0⟩)
    have hanswer : ∀ e ∈ lit.expressions, ∀ h, (steadyWorld kind f).answer (h ++ [Event.evaluate e]) =
        .ok (.primitive (.string (f e))) := by
      intro e he h
      simp [steadyWorld, htext e he]
    rw [hcode, evaluateSpans_text (hchunk.symm ▸ hanswer), TemplateLiteral.evaluate,
      evaluateSpans_text (hcooked.symm ▸ hanswer)] at hrun
    simpa using hrun
  · rintro ⟨hobject, htext⟩ l w hw r
    rw [hcode]
    exact evaluateSpans_congr (hchunk.trans hcooked.symm) (hchunk.symm ▸ hw) (hchunk.symm ▸ hobject)
      (hchunk.symm ▸ htext) []

/-- The literals whose code has the value of ECMAScript, by the kinds of their substitutions: no object is
converted, and in es2panda there are no escapes where all values are. -/
theorem concatenates_iff (lit : TemplateLiteral) (kind : ℕ → Kind) :
    (Concatenates (Es2panda.compileTemplate lit) lit kind ↔
      NoObject kind lit.expressions ∧ (AllText kind lit.expressions → ∀ q ∈ lit.quasis, q.raw = q.cooked)) ∧
    (Concatenates (Ts2panda.compileTemplateExpression lit) lit kind ↔ NoObject kind lit.expressions) := by
  constructor
  · rw [lit.raw_eq_cooked_iff]
    exact concatenates_of_run fun l w r => Es2panda.run_compileTemplate lit r
  · refine (concatenates_of_run fun l w r => Ts2panda.run_compileTemplateExpression lit r).trans ?_
    simp

/-- `` `\n` ``. -/
def escaped : TemplateLiteral where
  quasis := [⟨[92, 110], [10]⟩]
  expressions := []
  length_eq := rfl
  nodup := by simp

/-- `` `${o}` ``. -/
def substituted : TemplateLiteral where
  quasis := [⟨[], []⟩, ⟨[], []⟩]
  expressions := [0]
  length_eq := rfl
  nodup := by simp

/-- The escape is not read, and the object is asked for a value of any kind. -/
theorem not_concatenates :
    ¬ Concatenates (Es2panda.compileTemplate escaped) escaped (fun _ => .text) ∧
      ¬ Concatenates (Ts2panda.compileTemplateExpression substituted) substituted (fun _ => .object) := by
  constructor
  · intro h
    have hrun := h someLanguage _ (ofKind_steadyWorld (fun _ => .text) (fun _ => []) _)
      ⟨.object 0, fun _ => .object 0⟩
    have hvalue := congrArg Prod.fst hrun
    have hcode : (run someLanguage (steadyWorld (fun _ => .text) fun _ => [])
        (Es2panda.compileTemplate escaped) ⟨.object 0, fun _ => .object 0⟩ []).1 =
          .value (.primitive (.string [92, 110])) := rfl
    have hspec : (escaped.evaluate someLanguage (steadyWorld (fun _ => .text) fun _ => []) []).1 =
        .value (.primitive (.string [10])) := rfl
    rw [hcode, hspec] at hvalue
    simp at hvalue
  · intro h
    have hrun := h someLanguage _ (ofKind_steadyWorld (fun _ => .object) (fun _ => []) _)
      ⟨.object 0, fun _ => .object 0⟩
    have htrace := congrArg Prod.snd hrun
    have hcode : (run someLanguage (steadyWorld (fun _ => .object) fun _ => [])
        (Ts2panda.compileTemplateExpression substituted) ⟨.object 0, fun _ => .object 0⟩ []).2 =
          [.evaluate 0, .toPrimitive .default 0] := rfl
    have hspec : (substituted.evaluate someLanguage (steadyWorld (fun _ => .object) fun _ => []) []).2 =
        [.evaluate 0, .toPrimitive .string 0] := rfl
    rw [hcode, hspec] at htrace
    simp at htrace

end ArkTs2abc.TemplateLiterals
