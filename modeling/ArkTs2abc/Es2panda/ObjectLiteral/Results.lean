import ArkTs2abc.Es2panda.ObjectLiteral.Folding

/-!
# The object of an object literal

The code of an object literal makes the object of ECMAScript just if its properties can be folded. Where they
cannot, some user code tells the objects apart.

## Main results

* `right_iff_foldable` — the literals that are compiled right.
-/

namespace ArkTs2abc.Es2panda.ObjectLiteral

open PropertyTable

variable {u : UserCode}

/-! ## Keys -/

theorem ReachedFrom.known {known : Name → Prop} {ps : List Property} (h : ReachedFrom True known ps) :
    ∀ p ∈ ps, ∀ k, p.staticName = some k → known k := by
  induction ps generalizing known with
  | nil => simp
  | cons p ps ih =>
    obtain ⟨hp, hps⟩ := reachedFrom_cons.mp h
    have hhead : ∀ k, p.staticName = some k → known k := by
      intro k hk
      by_contra hknown
      exact hp ⟨k, hk, hknown, by simp, .inl trivial⟩
    rw [true_or] at hps
    refine List.forall_mem_cons.mpr ⟨hhead, fun q hq k hk => ?_⟩
    exact (ih hps q hq k hk).elim id (hhead k)

/-- The keys that blocks define. -/
def keysOf (bs : List Block) : List Place := (bs.flatMap Prod.snd).map Prod.fst

theorem keysOf_cons (b : Block) (bs : List Block) : keysOf (b :: bs) = b.2.map Prod.fst ++ keysOf bs := by
  simp [keysOf]

theorem keysOf_append (bs bs' : List Block) : keysOf (bs ++ bs') = keysOf bs ++ keysOf bs' := by
  simp [keysOf]

/-- With the names of the buffer defined first, the code defines the keys in the order of the literal. -/
theorem addKeys_unfolded {seen : Prop} {known : Name → Prop} {bs : List Block} {keys : List Place}
    (hreach : ReachedFrom seen known (bs.map fun b => b.1.1))
    (hkeys : ∀ b ∈ bs, ∀ k, b.1.1.staticName = some k → b.2.map Prod.fst = [.own k])
    (hnamed : ∀ b ∈ bs, b.1.1.staticKey.isSome → b.1.1.staticName.isSome)
    (hfolded : ∀ b ∈ bs, b.1.2 → b.1.1.staticKey.isSome) (hknown : ∀ k, known k → .own k ∈ keys) :
    addKeys (addKeys keys ((bs.filterMap fun b => b.1.1.staticName).map .own)) (keysOf (unfolded bs)) =
      addKeys keys (keysOf bs) := by
  induction bs generalizing seen known keys with
  | nil => rfl
  | cons b bs ih =>
    rw [List.forall_mem_cons] at hkeys hnamed hfolded
    obtain ⟨-, hrest⟩ := reachedFrom_cons.mp hreach
    cases hname : b.1.1.staticName with
    | some k =>
      have hone := hkeys.1 k hname
      rw [List.filterMap_cons_some (f := fun b : Block => b.1.1.staticName) hname, List.map_cons,
        keysOf_cons, hone, List.singleton_append]
      show addKeys (addKeys (addKey keys (.own k)) _) _ = addKeys (addKey keys (.own k)) _
      have hstep := @ih _ _ (addKey keys (.own k)) hrest hkeys.2 hnamed.2 hfolded.2 (by
        rintro k' (hk' | hk')
        · exact mem_addKey.mpr (.inl (hknown k' hk'))
        · cases hname.symm.trans hk'
          exact mem_addKey.mpr (.inr rfl))
      rw [← hstep]
      cases hb : b.1.2 with
      | true =>
        rw [unfolded, List.filter_cons_of_neg (by simp [hb])]
        rfl
      | false =>
        rw [unfolded, List.filter_cons_of_pos (by simp [hb]), keysOf_cons, hone, addKeys_append,
          @addKeys_of_subset _ _ _ [Place.own k] (by simp [mem_addKeys, mem_addKey])]
        rfl
    | none =>
      have hcomputed : b.1.1.staticKey = none := by
        by_contra hsome
        have := hnamed.1 (Option.isSome_iff_ne_none.mpr hsome)
        simp [hname] at this
      have hb : b.1.2 = false := by
        by_contra hb
        have := hfolded.1 (by simpa using hb)
        simp [hcomputed] at this
      simp only [hcomputed, or_true] at hrest
      -- all names behind it are known
      have hsubset : ∀ place ∈ (bs.filterMap fun b => b.1.1.staticName).map Place.own, place ∈ keys := by
        intro place hplace
        obtain ⟨k, hk, rfl⟩ := List.mem_map.mp hplace
        obtain ⟨b', hb', hname'⟩ := List.mem_filterMap.mp hk
        rcases hrest.known _ (List.mem_map_of_mem hb') k hname' with hk' | hk'
        · exact hknown k hk'
        · simp [hname] at hk'
      have hstep := @ih _ _ (addKeys keys (b.2.map Prod.fst)) hrest hkeys.2 hnamed.2 hfolded.2 (by
        rintro k (hk | hk)
        · exact mem_addKeys.mpr (.inl (hknown k hk))
        · simp [hname] at hk)
      rw [addKeys_of_subset fun place hplace => mem_addKeys.mpr (.inl (hsubset place hplace))] at hstep
      rw [List.filterMap_cons_none (f := fun b : Block => b.1.1.staticName) hname, addKeys_of_subset hsubset, keysOf_cons, addKeys_append,
        ← hstep, unfolded, List.filter_cons_of_pos (by simp [hb]), keysOf_cons, addKeys_append]
      rfl

theorem unfolded_append (bs bs' : List Block) : unfolded (bs ++ bs') = unfolded bs ++ unfolded bs' :=
  List.filter_append ..

theorem keys_of_staticName {p : Property} {k : Name} (hp : p.Canonical) (h : p.staticName = some k)
    (history : List Event) : ((p.evaluation u).definitions history).map Prod.fst = [.own k] := by
  obtain ⟨key, hkey, -, hname⟩ := name_of_staticName hp h
  cases p with
  | spread node | proto node value => cases hkey
  | init node key' value | accessor node side key' =>
    cases hkey
    simp [Property.evaluation, Key.place, hname]

namespace Folded

variable {done rest : List Property} {buf : LiteralBuffer} {hasMethod : Bool} {bsD bsR : List Block}
  {k : Name}

theorem unfolded_rest (h : Folded u done rest buf hasMethod bsD bsR) : unfolded bsR = bsR := by
  refine List.filter_eq_self.mpr fun b hb => ?_
  simp [(h.eq_false hb).2]

theorem keys_eq (h : Folded u done rest buf hasMethod bsD bsR) :
    addKeys (createObject buf hasMethod).keys (keysOf (unfolded (bsD ++ bsR))) =
      addKeys [] (keysOf (bsD ++ bsR)) := by
  have hbuf : (createObject buf hasMethod).keys =
      addKeys [] ((bsD.filterMap fun b => b.1.1.staticName).map .own) := by
    have hnames : done.filterMap Property.staticName = bsD.filterMap fun b => b.1.1.staticName := by
      rw [h.done_eq, List.filterMap_map]
      rfl
    show buf.names.map Place.own = _
    rw [h.buf_eq, names_foldl_addProperty, hnames, map_addKeys fun _ _ => Place.own.inj]
    rfl
  have hstep : addKeys (addKeys [] ((bsD.filterMap fun b => b.1.1.staticName).map .own))
      (keysOf (unfolded bsD)) = addKeys [] (keysOf bsD) := by
    have hreach := h.reached
    rw [h.done_eq] at hreach
    refine addKeys_unfolded hreach ?_ ?_ ?_ (by simp)
    · intro b hb k hname
      have hmem := List.mem_append_left bsR hb
      obtain ⟨⟨history, hdefs⟩, -⟩ := h.valid b hmem
      rw [hdefs]
      exact keys_of_staticName (h.canonical _ (List.mem_append_left _ (h.eq_folds hb).1)) hname history
    · intro b hb
      exact h.named _ (h.eq_folds hb).1
    · intro b hb hfolded
      rw [(h.eq_folds hb).2, Property.folds, Bool.and_eq_true] at hfolded
      exact hfolded.1
  rw [hbuf, unfolded_append, h.unfolded_rest, keysOf_append, keysOf_append, addKeys_append, hstep,
    addKeys_append]

/-- The object of the code is that of ECMAScript. -/
theorem defineAll_eq (hF : Foldable (done ++ rest)) (h : Folded u done rest buf hasMethod bsD bsR) :
    (createObject buf hasMethod).defineAll ((unfolded (bsD ++ bsR)).flatMap Prod.snd) =
      Table.empty.defineAll ((bsD ++ bsR).flatMap Prod.snd) := by
  have hslot : ∀ place, runSlot ((createObject buf hasMethod).slot place)
      (changesAt place (unfolded (bsD ++ bsR))) = runSlot none (changesAt place (bsD ++ bsR)) := by
    intro place
    cases place with
    | proto =>
      rw [ObjectLiteral.changesAt_unfolded fun b hb hfolded => ?_]
      · rfl
      · obtain ⟨k, -, hdefs⟩ := h.eq_of_folded hb hfolded
        rw [hdefs, changes_cons_of_ne (by simp), changes_nil]
    | own k =>
      rcases exists_last (fun b : Block => b.1.2 ∧ b.1.1.staticName = some k) bsD with
        hnone | ⟨x, b, y, hsplit, ⟨hfolded, hname⟩, hy⟩
      · refine h.slot_eq_of_no_folded fun b hb hfolded hname => ?_
        rcases List.mem_append.mp hb with hb | hb
        · exact hnone b hb ⟨hfolded, hname⟩
        · rw [(h.eq_false hb).2] at hfolded
          cases hfolded
      · exact h.slot_eq_of_folded hF hsplit hfolded hname fun c hc hcf hcn => hy c hc ⟨hcf, hcn⟩
  refine Table.ext ?_ (funext fun place => ?_)
  · rw [keys_defineAll, keys_defineAll]
    exact h.keys_eq
  · rw [slot_defineAll, slot_defineAll]
    exact hslot place

end Folded

/-! ## The first pass and the code behind it -/

/-- The properties with their bits. -/
def flagged (done rest : List Property) : List (Property × Bool) :=
  done.map (fun p => (p, p.folds)) ++ rest.map fun p => (p, false)

theorem map_fst_flagged (done rest : List Property) : (flagged done rest).map Prod.fst = done ++ rest := by
  simp [flagged, Function.comp_def]

theorem mem_flagged {done rest : List Property} {f : Property × Bool} (h : f ∈ flagged done rest) :
    (f.1 ∈ done ∧ f.2 = f.1.folds) ∨ (f.1 ∈ rest ∧ f.2 = false) := by
  rcases List.mem_append.mp h with h | h
  · obtain ⟨p, hp, rfl⟩ := List.mem_map.mp h
    exact .inl ⟨hp, rfl⟩
  · obtain ⟨p, hp, rfl⟩ := List.mem_map.mp h
    exact .inr ⟨hp, rfl⟩

/-- What `CompileStaticProperties` leaves of a literal, from the start. -/
abbrev PassedFirst (st : StaticProperties) (done rest : List Property) (bits : List Bool) : Prop :=
  Passed {} st done rest bits

theorem reachedFrom_start (ps : List Property) :
    ReachedFrom (({} : StaticProperties).seenComputed = true)
      (· ∈ ({} : StaticProperties).buf.names) ps ↔ Reached ps := by
  have hseen : (({} : StaticProperties).seenComputed = true) = False := by simp
  have hknown : (· ∈ ({} : StaticProperties).buf.names) = fun _ => False := by
    funext k
    simp [LiteralBuffer.names]
  rw [hseen, hknown]
  rfl

variable {bits : List Bool} {st : StaticProperties} {c : Compiled} {ps : List Property}
  {e : ObjectExpression}

theorem zip_bits {done rest : List Property} (h : PassedFirst st done rest bits) :
    (done ++ rest).zip bits = flagged done rest := by
  rw [h.bits_eq, List.zip_append (by simp), ← List.map_prod_left_eq_zip, ← List.map_prod_left_eq_zip]
  rfl

theorem compile_eq_some (h : compile ps = some c) :
    ∃ st done rest bits, ps = done ++ rest ∧ PassedFirst st done rest bits ∧
      compileRemaining (flagged done rest) = some c.code ∧ c.buf = st.buf ∧
      c.hasMethod = st.hasMethod := by
  unfold compile at h
  split at h
  next hnil =>
    subst hnil
    cases h
    exact ⟨{}, [], [], [], rfl, ⟨rfl, rfl, by simp, id, reachedFrom_nil, by simp, by simp⟩, rfl, rfl, rfl⟩
  next =>
    obtain ⟨⟨st, bits⟩, hloop, h⟩ := Option.bind_eq_some_iff.mp h
    obtain ⟨code, hcode, h⟩ := Option.bind_eq_some_iff.mp h
    cases h
    rcases staticLoop_spec {} ps with ⟨st', done, rest, bits', rfl, hsome, hpassed⟩ | ⟨hnone, -⟩
    · cases hloop.symm.trans hsome
      rw [zip_bits hpassed] at hcode
      exact ⟨st, done, rest, bits, rfl, hpassed, hcode, rfl, rfl⟩
    · cases hloop.symm.trans hnone

theorem compile_isSome (hbig : ∀ p ∈ ps, ∀ key ∈ p.key?, key.isBigInt = false)
    (hbool : ∀ pre p post, ps = pre ++ p :: post → Reached pre → ∀ b, p.key? ≠ some (.booleanLiteral b)) :
    (compile ps).isSome := by
  unfold compile
  split
  next => rfl
  next =>
    rcases staticLoop_spec {} ps with ⟨st, done, rest, bits, rfl, hsome, hpassed⟩ |
      ⟨-, pre, p, post, rfl, hkey, hname, hreach⟩
    · have hcode : (compileRemaining (flagged done rest)).isSome := by
        rw [compileRemaining_isSome]
        intro p hp
        obtain ⟨f, hf, rfl⟩ := List.mem_map.mp hp
        have hmem : f.1 ∈ done ++ rest := by
          rw [← map_fst_flagged]
          exact List.mem_map_of_mem (List.mem_filter.mp hf).1
        rw [compileProperty_isSome]
        cases hfkey : f.1.key? with
        | none => rfl
        | some key => simpa using hbig _ hmem key hfkey
      obtain ⟨code, hcode⟩ := Option.isSome_iff_exists.mp hcode
      rw [← zip_bits hpassed] at hcode
      simp [hsome, hcode]
    · obtain ⟨key, hstatic⟩ := Option.isSome_iff_exists.mp hkey
      obtain ⟨hkey', hconst⟩ := staticKey_eq_some.mp hstatic
      rw [Property.staticName, hstatic, Option.bind_some] at hname
      cases key with
      | booleanLiteral b => exact absurd hkey' (hbool pre p post rfl ((reachedFrom_start pre).mp hreach) b)
      | bigIntLiteral name | expression => cases hconst
      | identifier name | stringLiteral str isComputed | numberLiteral text name isIndex isComputed
      | nullLiteral => cases hname

theorem run_compile {done rest : List Property} (h : ∀ p ∈ ps, p.Canonical)
    (hps : ps = done ++ rest) (hcode : compileRemaining (flagged done rest) = some c.code)
    (u : UserCode) :
    c.run u = evaluateAll u [] (createObject c.buf c.hasMethod)
      ((remaining (flagged done rest)).map (Property.lateEvaluation u)) := by
  have hcanonical : ∀ f ∈ flagged done rest, f.1.Canonical := by
    intro f hf
    refine h _ ?_
    rw [hps, ← map_fst_flagged]
    exact List.mem_map_of_mem hf
  rw [Compiled.run_eq, exec_compileRemaining hcanonical hcode]

theorem done_of_reached {done rest pre post : List Property} {p : Property}
    (h : PassedFirst st done rest bits) (hps : done ++ rest = pre ++ p :: post)
    (hreach : Reached (pre ++ [p])) : ∃ post', done = pre ++ p :: post' ∧ post = post' ++ rest := by
  -- it would stop in front of `p` or before it
  have hstop : ∀ q rest' l, rest = q :: rest' → pre ++ [p] ≠ done ++ q :: l := by
    rintro q rest' l rfl heq
    refine hreach done q l heq ?_
    have hstops := h.stops q rfl
    simpa [StopsAt, LiteralBuffer.names] using hstops
  rcases List.append_eq_append_iff.mp hps with ⟨l, hpre, hrest⟩ | ⟨l, hdone, hrest⟩
  · cases l with
    | nil => exact absurd (by simp [hpre]) (hstop p post [] hrest)
    | cons q l => exact absurd (by simp [hpre]) (hstop q _ (l ++ [p]) hrest)
  · cases l with
    | nil => exact absurd (by simp [hdone]) (hstop p post [] hrest.symm)
    | cons q l =>
      obtain ⟨rfl, hpost⟩ := List.cons.inj hrest
      exact ⟨l, hdone, hpost⟩

theorem folded_of_gather {done rest : List Property} {bs : List Block}
    (hcanonical : ∀ p ∈ done ++ rest, p.Canonical) (h : PassedFirst st done rest bits)
    (hbs : (gather u [] (flagged done rest)).2 = some bs) :
    ∃ bsD bsR, bs = bsD ++ bsR ∧ Folded u done rest st.buf st.hasMethod bsD bsR := by
  obtain ⟨hmap, hblocks⟩ := blocks_of_gather hbs
  obtain ⟨bsD, bsR, rfl, hD, hR⟩ := List.map_eq_append_iff.mp hmap
  refine ⟨bsD, bsR, rfl, hcanonical, (reachedFrom_start done).mp h.reached, h.named, h.buf_eq,
    h.hasMethod, hD, hR, fun b hb => ⟨hblocks b hb, fun hfolded => ?_⟩⟩
  have hmem : b.1 ∈ flagged done rest := by
    rw [← hmap]
    exact List.mem_map_of_mem hb
  rcases mem_flagged hmem with ⟨-, hfolds⟩ | ⟨-, hfalse⟩
  · rwa [hfolds] at hfolded
  · rw [hfalse] at hfolded
    cases hfolded

theorem events_of_folded {done rest : List Property} {f : Property × Bool}
    (hcanonical : f.1.Canonical) (h : PassedFirst st done rest bits) (hf : f ∈ flagged done rest)
    (hfolded : f.2) : (f.1.evaluation u).events = [] := by
  rcases mem_flagged hf with ⟨hdone, hfolds⟩ | ⟨-, hfalse⟩
  · rw [hfolds] at hfolded
    have hstatic : f.1.staticKey.isSome := by
      rw [Property.folds, Bool.and_eq_true] at hfolded
      exact hfolded.1
    obtain ⟨k, hk⟩ := Option.isSome_iff_exists.mp (h.named _ hdone hstatic)
    rw [evaluation_of_folds hcanonical hfolded hk]
  · rw [hfalse] at hfolded
    cases hfolded

theorem run_eq_gather {done rest : List Property} (hps : ps = done ++ rest)
    (hcanonical : ∀ p ∈ ps, p.Canonical) (hpassed : PassedFirst st done rest bits)
    (hcode : compileRemaining (flagged done rest) = some c.code)
    (hkey : ∀ node, .init node .expression .expression ∉ ps) (u : UserCode) :
    c.run u = ((gather u [] (flagged done rest)).1,
      (gather u [] (flagged done rest)).2.map fun bs =>
        (createObject c.buf c.hasMethod).defineAll ((unfolded bs).flatMap Prod.snd)) := by
  have hmem : ∀ f ∈ flagged done rest, f.1 ∈ ps := by
    intro f hf
    rw [hps, ← map_fst_flagged]
    exact List.mem_map_of_mem hf
  have hlate : (remaining (flagged done rest)).map (Property.lateEvaluation u) =
      ((flagged done rest).filter fun f => !f.2).map fun f => f.1.evaluation u := by
    rw [remaining, List.map_map]
    refine List.map_congr_left fun f hf => lateEvaluation_eq fun node heq => ?_
    exact hkey node (heq ▸ hmem f (List.mem_filter.mp hf).1)
  rw [run_compile hcanonical hps hcode, hlate, evaluateAll_eq, gather_filter u [] fun f hf =>
    events_of_folded (hcanonical _ (hmem f hf)) hpassed hf, Option.map_map]
  rfl

theorem evaluate_eq_gather {done rest : List Property} (hps : e.properties = done ++ rest)
    (u : UserCode) :
    e.evaluate u = ((gather u [] (flagged done rest)).1,
      (gather u [] (flagged done rest)).2.map fun bs => Table.empty.defineAll (bs.flatMap Prod.snd)) := by
  rw [ObjectExpression.evaluate, ← evaluateAll_eq, hps, ← map_fst_flagged, List.map_map]
  rfl

theorem right_of_foldable (hcanonical : ∀ p ∈ e.properties, p.Canonical)
    (hF : Foldable e.properties) : e.Right := by
  obtain ⟨c, hc⟩ := Option.isSome_iff_exists.mp (compile_isSome hF.noBigInt hF.noBoolean)
  obtain ⟨st, done, rest, bits, hps, hpassed, hcode, hbuf, hmethod⟩ := compile_eq_some hc
  refine ⟨c, hc, fun u => ?_⟩
  rw [run_eq_gather hps hcanonical hpassed hcode hF.keyFirst, evaluate_eq_gather hps]
  cases hbs : (gather u [] (flagged done rest)).2 with
  | none => rfl
  | some bs =>
    rw [hps] at hcanonical hF
    obtain ⟨bsD, bsR, rfl, hfolded⟩ := folded_of_gather hcanonical hpassed hbs
    rw [Option.map_some, Option.map_some, hbuf, hmethod, hfolded.defineAll_eq hF]

/-! ## Literals that are not compiled right -/

theorem noBigInt_of_compile (h : compile ps = some c) :
    ∀ p ∈ ps, ∀ key ∈ p.key?, key.isBigInt = false := by
  obtain ⟨st, done, rest, bits, rfl, hpassed, hcode, -⟩ := compile_eq_some h
  intro p hp key hkey
  by_contra hbig
  have hkey' : p.key? = some key := hkey
  have hsome := (compileRemaining_isSome _).mp (Option.isSome_iff_exists.mpr ⟨_, hcode⟩)
  -- the key is no constant, so the property is left to the second pass
  have hfolds : p.folds = false := by
    rw [← Bool.not_eq_true, folds_iff]
    rintro ⟨node, key', value, rfl, hconst, -⟩
    cases hkey'
    cases key <;> simp_all [isConstantPropertyKey, Key.isBigInt]
  have hmem : p ∈ remaining (flagged done rest) := by
    refine List.mem_map.mpr ⟨(p, false), List.mem_filter.mpr ⟨?_, rfl⟩, rfl⟩
    refine List.mem_append.mpr ((List.mem_append.mp hp).imp ?_ ?_) <;> intro hp'
    · exact List.mem_map.mpr ⟨p, hp', by rw [hfolds]⟩
    · exact List.mem_map.mpr ⟨p, hp', rfl⟩
  have hp' := hsome p hmem
  rw [compileProperty_isSome, hkey', Option.all_some] at hp'
  rw [Bool.not_eq_false] at hbig
  simp [hbig] at hp'

theorem noBoolean_of_compile (h : compile ps = some c) (pre : List Property) (p : Property)
    (post : List Property) (hps : ps = pre ++ p :: post) (hreach : Reached pre) (b : Bool) :
    p.key? ≠ some (.booleanLiteral b) := by
  obtain ⟨st, done, rest, bits, rfl, hpassed, -⟩ := compile_eq_some h
  intro hkey
  have hstatic : p.staticKey = some (.booleanLiteral b) := staticKey_eq_some.mpr ⟨hkey, rfl⟩
  have hname : p.staticName = none := by
    rw [Property.staticName, hstatic]
    rfl
  have hreach' : Reached (pre ++ [p]) := by
    intro pre' q post' heq
    rcases List.eq_nil_or_concat post' with rfl | ⟨post'', q', rfl⟩
    · obtain ⟨rfl, hq⟩ := List.append_inj' heq rfl
      cases hq
      rintro ⟨k, hk, -⟩
      simp [hname] at hk
    · refine hreach pre' q post'' ?_
      rw [List.concat_eq_append, ← List.cons_append, ← List.append_assoc] at heq
      exact (List.append_inj' heq rfl).1
  obtain ⟨post', rfl, -⟩ := done_of_reached hpassed hps hreach'
  have hnamed := hpassed.named p (by simp) (by simp [hstatic])
  simp [hname] at hnamed

theorem eq_of_flatMap_eq {α β : Type} {f g : α → List β} {as : List α}
    (hlength : ∀ a ∈ as, (f a).length = (g a).length) (h : as.flatMap f = as.flatMap g) :
    ∀ a ∈ as, f a = g a := by
  induction as with
  | nil => simp
  | cons a as ih =>
    rw [List.forall_mem_cons] at hlength
    rw [List.flatMap_cons, List.flatMap_cons] at h
    obtain ⟨ha, has⟩ := List.append_inj h hlength.1
    exact List.forall_mem_cons.mpr ⟨ha, ih hlength.2 has⟩

theorem perform_of_completes (hu : ∀ h, u.completes h) (history es : List Event) :
    u.perform history es = (history ++ es, true) := by
  induction es generalizing history with
  | nil => simp [UserCode.perform]
  | cons e es ih => simp [UserCode.perform, hu, ih]

theorem history_evaluateAll (hu : ∀ h, u.completes h) (history : List Event) (object : Object)
    (es : List Evaluation) :
    (evaluateAll u history object es).1 = history ++ es.flatMap Evaluation.events := by
  induction es generalizing history object with
  | nil => simp [evaluateAll]
  | cons e es ih => simp [evaluateAll, perform_of_completes hu, ih]

theorem length_lateEvaluation (u : UserCode) (p : Property) :
    (p.lateEvaluation u).events.length = (p.evaluation u).events.length := by
  cases p with
  | spread node | accessor node side key | proto node value => rfl
  | init node key value =>
    cases key with
    | expression => simp [Property.lateEvaluation, Property.evaluation, Key.events]
    | identifier name | stringLiteral str isComputed | numberLiteral text name isIndex isComputed
    | bigIntLiteral name | booleanLiteral b | nullLiteral => rfl

theorem events_remaining (u : UserCode) (fs : List (Property × Bool)) :
    ((remaining fs).map (Property.lateEvaluation u)).flatMap Evaluation.events =
      fs.flatMap fun f => if f.2 then [] else (f.1.lateEvaluation u).events := by
  induction fs with
  | nil => rfl
  | cons f fs ih =>
    obtain ⟨p, folded⟩ := f
    cases folded with
    | true => exact ih
    | false => exact congrArg _ ih

/-- User code that always completes. -/
def observer : UserCode where
  completes _ := true
  name _ := []
  value _ := .user 0
  source _ := []

theorem keyFirst_of_right (hcanonical : ∀ p ∈ e.properties, p.Canonical) (h : e.Right) (node : ℕ) :
    .init node .expression .expression ∉ e.properties := by
  intro hmem
  obtain ⟨c, hc, hrun⟩ := h
  obtain ⟨st, done, rest, bits, hps, hpassed, hcode, -⟩ := compile_eq_some hc
  have hu : ∀ h, observer.completes h := fun _ => rfl
  have hhistory := congrArg Prod.fst (hrun observer)
  rw [run_compile hcanonical hps hcode, ObjectExpression.evaluate, history_evaluateAll hu,
    history_evaluateAll hu, events_remaining, hps, ← map_fst_flagged, List.map_map, List.flatMap_map,
    List.nil_append, List.nil_append] at hhistory
  have hevents : ∀ f ∈ flagged done rest, f.2 → (f.1.evaluation observer).events = [] := by
    intro f hf
    refine events_of_folded (hcanonical _ ?_) hpassed hf
    rw [hps, ← map_fst_flagged]
    exact List.mem_map_of_mem hf
  have heach := eq_of_flatMap_eq (fun f hf => ?_) hhistory
  · have hnode : (Property.init node .expression .expression, false) ∈ flagged done rest := by
      rw [hps] at hmem
      refine List.mem_append.mpr ((List.mem_append.mp hmem).imp ?_ ?_) <;> intro hmem'
      · exact List.mem_map.mpr ⟨_, hmem', rfl⟩
      · exact List.mem_map.mpr ⟨_, hmem', rfl⟩
    have hne := heach _ hnode
    simp [Property.lateEvaluation, Property.evaluation, Key.events, Value.events] at hne
  · split
    next hfolded => simp [hevents f hf hfolded]
    next => exact length_lateEvaluation observer f.1

/-- User code that defines one name at one property, and others elsewhere. -/
def spoiler (node : ℕ) (k : Name) : UserCode where
  completes _ := true
  name h := if h.getLast? = some (.toPropertyKey node) then k else 'x' :: k
  value _ := .user 0
  source h := if h.getLast? = some (.copyProperties node) then [(k, .user 0)] else []

variable {node : ℕ}

theorem name_spoiler_of_ne {node' : ℕ} {k : Name} (h : node' ≠ node) (history : List Event) :
    (spoiler node k).name (history ++ Key.expression.events node') ≠ k := by
  simp [spoiler, Key.events, h]

theorem name_of_spoiler {node' : ℕ} {key : Key} {k : Name} {history : List Event} (h : node' ≠ node)
    (hplace : key.place (spoiler node k) (history ++ key.events node') = .own k) :
    key.name = some k := by
  rcases name_or_of_place hplace with rfl | hname
  · rw [Key.place, Place.own.injEq] at hplace
    exact absurd hplace (name_spoiler_of_ne h history)
  · exact hname

theorem mem_changes_spoiler {p : Property} {k : Name} {c : Change JsValue JsValue}
    {history : List Event} (hnode : p.node ≠ node)
    (hc : c ∈ changes (.own k) ((p.evaluation (spoiler node k)).definitions history)) :
    (p.SetsData k ∧ ∃ key value h', p = .init p.node key value ∧ key.name = some k ∧
      c = .data (value.result (spoiler node k) p.node h')) ∨
    ∃ side key, p = .accessor p.node side key ∧ key.name = some k ∧ c = .accessor side (.closure p.node) := by
  rw [mem_changes] at hc
  cases p with
  | spread node' =>
    obtain ⟨q, hq, -⟩ := List.mem_map.mp hc
    have hne : node' ≠ node := hnode
    simp [spoiler, hne] at hq
  | proto node' value => simp [Property.evaluation] at hc
  | init node' key value =>
    obtain ⟨hplace, rfl⟩ := Prod.mk.inj (List.mem_singleton.mp hc)
    have hname := name_of_spoiler hnode hplace.symm
    exact .inl ⟨⟨node', key, value, rfl, hname⟩, key, value, _, rfl, hname, rfl⟩
  | accessor node' side key =>
    obtain ⟨hplace, rfl⟩ := Prod.mk.inj (List.mem_singleton.mp hc)
    exact .inr ⟨side, key, rfl, name_of_spoiler hnode hplace.symm, rfl⟩

theorem place_spoiler {key : Key} {k : Name} (h : key = .expression ∨ key.name = some k)
    (history : List Event) : key.place (spoiler node k) (history ++ key.events node) = .own k := by
  rcases h with rfl | hname
  · simp [Key.place, Key.name, Key.events, spoiler]
  · simp [Key.place, hname]

/-- What the property itself does to the name. -/
def Property.spoiling (u : UserCode) (history : List Event) : Property → List (Change JsValue JsValue)
  | spread _ => [.data (.user 0)]
  | init node key value => [.data (value.result u node (history ++ key.events node ++ value.events node))]
  | accessor node side _ => [.accessor side (.closure node)]
  | proto _ _ => []

theorem changes_spoiler {p : Property} {k : Name} {folded : Value} {between behind : List Property}
    (h : Spoils k folded between behind p) (history : List Event) :
    changes (.own k) ((p.evaluation (spoiler p.node k)).definitions history) =
      p.spoiling (spoiler p.node k) history := by
  cases p with
  | spread node => simp [Property.evaluation, spoiler, Property.node, copies, changes, Property.spoiling]
  | proto node value => exact h.elim
  | init node key value =>
    have hkey : key = .expression ∨ key.name = some k := h.1.imp_right And.left
    simp only [Property.evaluation, Property.node, place_spoiler hkey, changes_cons_self, changes_nil,
      Property.spoiling]
  | accessor node side key =>
    simp only [Property.evaluation, Property.node, place_spoiler h.1, changes_cons_self, changes_nil,
      Property.spoiling]

theorem result_ne {node' n : ℕ} {k : Name} {value value' : Value} {h h' : List Event}
    (hlate : value.isLate = false) (hnode : node' ≠ node)
    (hconst : ¬ ∃ l, value' = .constant l ∧ value = .constant l) :
    value'.result (spoiler n k) node' h' ≠ value.result (spoiler n k) node h := by
  cases value with
  | function | expression => cases hlate
  | constant l =>
    cases value' with
    | constant l' =>
      rintro ⟨⟩
      exact hconst ⟨l, rfl, rfl⟩
    | method isGenerator isAsync | function | expression => simp [Value.result, spoiler]
  | method isGenerator isAsync => cases value' <;> simp [Value.result, spoiler, hnode]

/-- A run in which user code overwrites a folded property. -/
structure SpoiledRun (k : Name) (value : Value) (done rest : List Property) (buf : LiteralBuffer)
    (hasMethod : Bool) (before between behind bsR : List Block) (p q : Block) : Prop where
  run : Folded (spoiler p.1.1.node k) done rest buf hasMethod
    (before ++ p :: (between ++ q :: behind)) bsR
  nodup : ((before ++ p :: (between ++ q :: behind) ++ bsR).map fun b => b.1.1.node).Nodup
  noBigInt : ∀ r ∈ done, ∀ key ∈ r.key?, key.isBigInt = false
  folded : ∃ node key, q.1.1 = .init node key value ∧ isConstantPropertyKey key ∧ key.name = some k
  early : value.isLate = false
  last : ∀ b ∈ behind ++ bsR, ¬ b.1.1.SetsData k
  spoils : Spoils k value (between.map fun b => b.1.1) ((behind ++ bsR).map fun b => b.1.1) p.1.1

namespace SpoiledRun

variable {value : Value} {done rest : List Property} {buf : LiteralBuffer} {hasMethod : Bool}
  {before between behind bsR : List Block} {p q : Block} {k : Name}

section

variable (h : SpoiledRun k value done rest buf hasMethod before between behind bsR p q)
include h

theorem node_ne {b : Block}
    (hb : b ∈ before ∨ b ∈ between ∨ b = q ∨ b ∈ behind ++ bsR) : b.1.1.node ≠ p.1.1.node := by
  have hnodup := h.nodup
  simp only [List.append_assoc, List.cons_append, List.map_append, List.map_cons, List.nodup_append,
    List.nodup_cons, List.mem_append, List.mem_cons, List.mem_map] at hnodup hb
  grind

theorem node_ne_folded {b : Block} (hb : b ∈ before ∨ b = p ∨ b ∈ between) : b.1.1.node ≠ q.1.1.node := by
  have hnodup := h.nodup
  simp only [List.append_assoc, List.cons_append, List.map_append, List.map_cons, List.nodup_append,
    List.nodup_cons, List.mem_append, List.mem_cons, List.mem_map] at hnodup hb
  grind

theorem behind_accessor {c : Change JsValue JsValue} (hc : c ∈ changesAt (.own k) (behind ++ bsR)) :
    ∃ side f, c = .accessor side f ∧ HasAccessor side k ((behind ++ bsR).map fun b => b.1.1) := by
  obtain ⟨b, hb, hcb⟩ := mem_changesAt.mp hc
  obtain ⟨⟨history, hdefs⟩, -⟩ := h.run.valid b (by simp at hb ⊢; tauto)
  rw [hdefs] at hcb
  rcases mem_changes_spoiler (h.node_ne (.inr (.inr (.inr hb)))) hcb with ⟨hdata, -⟩ | ⟨side, key, hp, hname, rfl⟩
  · exact absurd hdata (h.last b hb)
  · exact ⟨side, _, rfl, _, List.mem_map_of_mem hb, _, key, hp, hname⟩

theorem late_of_setsData {b : Block} (hb : b ∈ before ++ p :: (between ++ q :: behind)) (hunfolded : b.1.2 = false) {node : ℕ}
    {key : Key} {value' : Value} (hprop : b.1.1 = .init node key value') (hname : key.name = some k) :
    value'.isLate := by
  obtain ⟨hdone, hfolds⟩ := h.run.eq_folds hb
  have hcanonical := h.run.canonical _ (List.mem_append_left _ hdone)
  have hkey : b.1.1.key? = some key := by rw [hprop]; rfl
  have hstatic := staticName_of_name hcanonical hkey hname (h.noBigInt _ hdone key hkey)
    (h.run.named _ hdone)
  obtain ⟨key', hkey', hconst, -⟩ := name_of_staticName hcanonical hstatic
  cases hkey.symm.trans hkey'
  by_contra hlate
  have hf : b.1.1.folds := folds_iff.mpr ⟨node, key, value', hprop, hconst, by simpa using hlate⟩
  rw [hfolds, hf] at hunfolded
  cases hunfolded

theorem spoiling_unfolded :
    p.1.2 = false := by
  rw [(h.run.eq_folds (b := p) (by simp)).2, ← Bool.not_eq_true, folds_iff]
  rintro ⟨node, key, value', hprop, hconst, hlate⟩
  have hspoils := h.spoils
  rw [hprop] at hspoils
  rcases hspoils.1 with rfl | ⟨-, hlate'⟩
  · cases hconst
  · rw [hlate] at hlate'
    cases hlate'

theorem folded_folded :
    q.1.2 = true ∧ q.1.1.staticName = some k ∧ q.1.1.foldValue =
      value.result (spoiler p.1.1.node k) q.1.1.node [] := by
  obtain ⟨hdone, hfolds⟩ := h.run.eq_folds (b := q) (by simp)
  obtain ⟨node, key, hprop, hconst, hname⟩ := h.folded
  have hkey : q.1.1.key? = some key := by rw [hprop]; rfl
  refine ⟨?_, ?_, ?_⟩
  · rw [hfolds, folds_iff]
    exact ⟨node, key, value, hprop, hconst, h.early⟩
  · exact staticName_of_name (h.run.canonical _ (List.mem_append_left _ hdone)) hkey hname
      (h.noBigInt _ hdone key hkey) (h.run.named _ hdone)
  · rw [hprop]
    cases value with
    | function | expression => cases h.early
    | constant l | method isGenerator isAsync => rfl

theorem slot_spec :
    runSlot none (changesAt (.own k) (before ++ p :: (between ++ q :: behind) ++ bsR)) =
      runSlot (some (.data q.1.1.foldValue)) (changesAt (.own k) (behind ++ bsR)) := by
  obtain ⟨hfolded, hname, -⟩ := h.folded_folded
  obtain ⟨k', hk', hdefs⟩ := h.run.eq_of_folded (b := q) (by simp) hfolded
  cases hname.symm.trans hk'
  simp only [List.append_assoc, List.cons_append, changesAt_append, changesAt_cons, hdefs,
    changes_cons_self, changes_nil, runSlot_append, runSlot_cons, runSlot_nil]
  rfl

/-- What the property does to the name. -/
theorem changes_spoiling :
    ∃ c, changes (.own k) p.2 = [c] ∧ c ≠ .data q.1.1.foldValue ∧
      ∀ node side key, p.1.1 = .accessor node side key → c = .accessor side (.closure node) := by
  obtain ⟨⟨history, hdefs⟩, -⟩ := h.run.valid p (by simp)
  have hspoils := h.spoils
  have hchanges := changes_spoiler hspoils history
  have hne := h.node_ne_folded (.inr (.inl rfl))
  rw [← hdefs] at hchanges
  rw [h.folded_folded.2.2]
  have hearly := h.early
  cases hprop : p.1.1 with
  | proto node value' =>
    rw [hprop] at hspoils
    exact hspoils.elim
  | spread node =>
    rw [hprop, Property.spoiling] at hchanges
    refine ⟨_, hchanges, ?_, by simp⟩
    cases value <;> simp_all [Value.result, Value.isLate]
  | accessor node side key =>
    rw [hprop, Property.spoiling] at hchanges
    refine ⟨_, hchanges, by simp, ?_⟩
    rintro node' side' key' ⟨⟩
    rfl
  | init node key value' =>
    rw [hprop] at hchanges hspoils hne
    rw [Property.spoiling] at hchanges
    refine ⟨_, hchanges, ?_, by simp⟩
    intro heq
    exact result_ne h.early hne hspoils.2.1 (Change.data.inj heq)

/-- Nothing that is not folded sets the value that is folded. -/
theorem change_ne {c : Change JsValue JsValue}
    (hc : c ∈ changesAt (.own k) (unfolded (before ++ p :: (between ++ q :: behind) ++ bsR))) :
    c ≠ .data q.1.1.foldValue := by
  obtain ⟨b, hb, hcb⟩ := mem_changesAt.mp hc
  obtain ⟨hmem, hunfolded⟩ := List.mem_filter.mp hb
  rw [Bool.not_eq_true'] at hunfolded
  obtain ⟨hfolded, -, hvalue⟩ := h.folded_folded
  by_cases hbp : b = p
  · obtain ⟨c', hc', hne, -⟩ := h.changes_spoiling
    rw [hbp, hc', List.mem_singleton] at hcb
    rwa [hcb]
  · have hbq : b ≠ q := by
      rintro rfl
      rw [hunfolded] at hfolded
      cases hfolded
    have hplace : b ∈ before ∨ b ∈ between ∨ b ∈ behind ++ bsR := by
      simp only [List.mem_append, List.mem_cons] at hmem ⊢
      tauto
    obtain ⟨⟨history, hdefs⟩, -⟩ := h.run.valid b hmem
    rw [hdefs] at hcb
    rcases mem_changes_spoiler (h.node_ne (by tauto)) hcb with
      ⟨hdata, key, value', h', hprop, hname, rfl⟩ | ⟨side, key, -, -, rfl⟩
    · rcases or_assoc.mpr hplace with hpre | hbehind
      · have hbD : b ∈ before ++ p :: (between ++ q :: behind) := by
          simp only [List.mem_append, List.mem_cons]
          tauto
        have hlate := h.late_of_setsData hbD hunfolded hprop hname
        have hnode := h.node_ne_folded (hpre.imp_right .inr)
        rw [hvalue]
        intro heq
        refine result_ne h.early hnode ?_ (Change.data.inj heq)
        rintro ⟨l, rfl, -⟩
        cases hlate
      · exact absurd hdata (h.last b hbehind)
    · simp

theorem unfolded_eq :
    unfolded (before ++ p :: (between ++ q :: behind) ++ bsR) =
      unfolded before ++ p :: (unfolded between ++ unfolded (behind ++ bsR)) := by
  simp [unfolded, h.spoiling_unfolded, h.folded_folded.1]

/-- The code makes something else of the name. -/
theorem slot_ne :
    runSlot ((createObject buf hasMethod).slot (.own k))
        (changesAt (.own k) (unfolded (before ++ p :: (between ++ q :: behind) ++ bsR))) ≠
      runSlot none (changesAt (.own k) (before ++ p :: (between ++ q :: behind) ++ bsR)) := by
  obtain ⟨c, hc, -, hcaccessor⟩ := h.changes_spoiling
  rw [h.slot_spec]
  -- without accessors behind it, the value stays in ECMAScript
  have hvalue (hnone : ∀ side, ¬ HasAccessor side k ((behind ++ bsR).map fun b => b.1.1)) :
      runSlot ((createObject buf hasMethod).slot (.own k))
        (changesAt (.own k) (unfolded (before ++ p :: (between ++ q :: behind) ++ bsR))) ≠
      runSlot (some (.data q.1.1.foldValue)) (changesAt (.own k) (behind ++ bsR)) := by
    have hnil : changesAt (.own k) (behind ++ bsR) = [] := by
      refine List.eq_nil_iff_forall_not_mem.mpr fun c' hc' => ?_
      obtain ⟨side, -, -, hside⟩ := h.behind_accessor hc'
      exact hnone side hside
    rw [hnil, runSlot_nil]
    refine runSlot_ne_data _ ?_ fun c' hc' => h.change_ne hc'
    rw [h.unfolded_eq, changesAt_append, changesAt_cons, hc]
    simp
  have hspoils := h.spoils
  cases hprop : p.1.1 with
  | proto node value' =>
    rw [hprop] at hspoils
    exact hspoils.elim
  | spread node =>
    rw [hprop] at hspoils
    exact hvalue hspoils
  | init node key value' =>
    rw [hprop] at hspoils
    exact hvalue hspoils.2.2
  | accessor node side key =>
    rw [hprop] at hspoils
    obtain ⟨-, hside, hother⟩ := hspoils
    rcases hother with hother | hbetween
    · refine hvalue fun side' => ?_
      rcases side.eq_or_eq_other side' with rfl | rfl
      · exact hside
      · exact hother
    · -- the accessor stays in the code, and is gone in ECMAScript
      intro heq
      have hgone : Slot.field side (runSlot (some (.data q.1.1.foldValue))
          (changesAt (.own k) (behind ++ bsR))) = none := by
        rw [field_runSlot_of_others, Slot.field_data]
        intro c' hc'
        obtain ⟨side', f, rfl, hside'⟩ := h.behind_accessor hc'
        rcases side.eq_or_eq_other side' with rfl | rfl
        · exact absurd hside' hside
        · exact ⟨f, rfl⟩
      have hstays : (Slot.field side (runSlot ((createObject buf hasMethod).slot (.own k))
          (changesAt (.own k) (unfolded (before ++ p :: (between ++ q :: behind) ++ bsR))))).isSome := by
        rw [h.unfolded_eq, changesAt_append, runSlot_append, changesAt_cons, hc,
          hcaccessor node side key hprop, List.singleton_append, runSlot_cons]
        refine field_runSlot_isSome _ (by rw [Change.field_apply_self]; rfl) fun c' hc' v => ?_
        rintro rfl
        rw [changesAt_append, List.mem_append, mem_changesAt, mem_changesAt] at hc'
        rcases hc' with ⟨b, hb, hcb⟩ | ⟨b, hb, hcb⟩
        · obtain ⟨hmem, hunfolded⟩ := List.mem_filter.mp hb
          rw [Bool.not_eq_true'] at hunfolded
          have hbD : b ∈ before ++ p :: (between ++ q :: behind) := by simp [hmem]
          obtain ⟨⟨history, hdefs⟩, -⟩ := h.run.valid b (List.mem_append_left _ hbD)
          rw [hdefs] at hcb
          rcases mem_changes_spoiler (h.node_ne (.inr (.inl hmem))) hcb with
            ⟨-, key', value', -, hprop', hname, -⟩ | ⟨side', key', -, -, heq'⟩
          · exact hbetween _ (List.mem_map_of_mem hmem)
              ⟨_, key', value', hprop', hname, h.late_of_setsData hbD hunfolded hprop' hname⟩
          · cases heq'
        · obtain ⟨side', f, heq', -⟩ :=
            h.behind_accessor (mem_changesAt.mpr ⟨b, (List.mem_filter.mp hb).1, hcb⟩)
          cases heq'
      rw [heq, hgone] at hstays
      cases hstays

end

end SpoiledRun

theorem gather_isSome (hu : ∀ h, u.completes h) (history : List Event) (fs : List (Property × Bool)) :
    (gather u history fs).2.isSome := by
  induction fs generalizing history with
  | nil => rfl
  | cons f fs ih => simp [gather, perform_of_completes hu, ih]

/-- In a literal that is compiled right no folded property is overwritten. -/
theorem notSpoiled_of_right (hcanonical : ∀ p ∈ e.properties, p.Canonical) (h : e.Right)
    {pre : List Property} {key : Key} {value : Value} {post : List Property} {k : Name}
    (hps : e.properties = pre ++ Property.init node key value :: post)
    (hreach : Reached (pre ++ [Property.init node key value])) (hconst : isConstantPropertyKey key)
    (hname : key.name = some k) (hlate : value.isLate = false) (hlast : ∀ q ∈ post, ¬ q.SetsData k)
    {a : List Property} {p : Property} {b : List Property} (hpre : pre = a ++ p :: b) :
    ¬ Spoils k value b post p := by
  intro hspoils
  have hkeyFirst := keyFirst_of_right hcanonical h
  obtain ⟨c, hc, hrun⟩ := h
  obtain ⟨st, done, rest, bits, hdone, hpassed, hcode, hbuf, hmethod⟩ := compile_eq_some hc
  obtain ⟨post', rfl, rfl⟩ := done_of_reached hpassed (hdone.symm.trans hps) hreach
  have hu : ∀ h, (spoiler p.node k).completes h := fun _ => rfl
  obtain ⟨bs, hbs⟩ := Option.isSome_iff_exists.mp
    (gather_isSome hu [] (flagged (pre ++ Property.init node key value :: post') rest))
  obtain ⟨bsD, bsR, rfl, hfolded⟩ := folded_of_gather (hdone ▸ hcanonical) hpassed hbs
  -- the blocks of the two properties
  have hblocks := hfolded.done_eq
  subst hpre
  obtain ⟨bsPre, bsPost, rfl, hbsPre, hbsPost⟩ := List.map_eq_append_iff.mp hblocks.symm
  obtain ⟨bq, behind, rfl, hbq, rfl⟩ := List.map_eq_cons_iff.mp hbsPost
  obtain ⟨before, bsMid, rfl, rfl, hbsMid⟩ := List.map_eq_append_iff.mp hbsPre
  obtain ⟨bp, between, rfl, rfl, rfl⟩ := List.map_eq_cons_iff.mp hbsMid
  have hshape : before ++ bp :: between ++ bq :: behind = before ++ bp :: (between ++ bq :: behind) := by
    simp
  have hrest := hfolded.rest_eq
  rw [hshape] at hfolded
  have hspoiled : SpoiledRun k value _ rest st.buf st.hasMethod before between behind bsR bp bq :=
    { run := hfolded
      nodup := by
        have hnodup := e.nodup
        rw [hdone, ← hbq, hrest] at hnodup
        simpa [Function.comp_def] using hnodup
      noBigInt := fun r hr => noBigInt_of_compile hc r (hdone ▸ List.mem_append_left _ hr)
      folded := ⟨node, key, hbq, hconst, hname⟩
      early := hlate
      last := by
        intro b hb
        refine hlast _ ?_
        rw [hrest, ← List.map_append]
        exact List.mem_map_of_mem hb
      spoils := by
        rw [List.map_append, ← hrest]
        exact hspoils }
  -- the objects differ under the name
  have hobject := congrArg Prod.snd (hrun (spoiler bp.1.1.node k))
  rw [run_eq_gather hdone hcanonical hpassed hcode hkeyFirst, evaluate_eq_gather hdone, hbs,
    Option.map_some, Option.map_some, Option.some.injEq, hbuf, hmethod, hshape] at hobject
  have hslot := congrFun (congrArg Table.slot hobject) (.own k)
  rw [slot_defineAll, slot_defineAll] at hslot
  exact hspoiled.slot_ne hslot

/-- `{ a: f(), b: 1 }`. -/
def inOrder : ObjectExpression where
  properties := [.init 0 (.identifier ['a']) .expression,
    .init 1 (.identifier ['b']) (.constant (.number ['1']))]
  nodup := by decide

/-- `{ a: f(), a: 1 }`. -/
def overwritten : ObjectExpression where
  properties := [.init 0 (.identifier ['a']) .expression,
    .init 1 (.identifier ['a']) (.constant (.number ['1']))]
  nodup := by decide

end ArkTs2abc.Es2panda.ObjectLiteral
