import ArkTs2abc.Ts2panda.CatchRanges

/-!
# The lexical environments alive along a run

The machine keeps nothing but the number of loop environments. A jump finds its
label at the depth that the label is noted with where the counters of the compiler
are right, an exception its handler, and a finalizer compiled in place the depth of
its try statement. Whether they are right can be read off the nest; runs in which
they are find every label at its depth.

## Main definitions

* `Insn.exec` — the machine.
* `handlers` — where an exception goes.
* `Balanced` — steps that come out at the right depth.

## Main results

* `live_eq_note` — a balanced run finds each point at its depth.
* `jump_depth_iff`, `inlined_depth_iff`, `handler_depth_iff` — where a step comes out at the right
  depth.
-/

namespace ArkTs2abc.Ts2panda.Compiler

open FlatCode (Point Outcome Config)

variable {E : Type}

/-- The environments alive behind an instruction that ends in this way, if it can. -/
def Insn.exec : Insn E → Outcome ℕ → ℕ → Option ℕ
  | .code _, .next, n | .code _, .raise, n => some n
  | .operation _, .next, n | .operation _, .raise, n => some n
  | .move, .next, n => some n
  | .createLexEnv, .next, n => some (n + 1)
  | .popLexicalEnv, .next, n + 1 => some n
  | .branch l, .jump l', n => if l' = l then some n else none
  | .condition _, .next, n => some n
  | .condition l, .jump l', n => if l' = l then some n else none
  | .throw, .raise, n => some n
  | _, _, _ => none

def Executes (i : Insn E) (n : ℕ) (o : Outcome ℕ) (n' : ℕ) : Prop := i.exec o n = some n'

/-- The handler of the first entry that covers the position. -/
def handlers (pg : PandaGen E) : FlatCode.Handlers ℕ := fun pc l =>
  ∃ pre pair post, catchTableEntries pg.catchMap = pre ++ (pair, l) :: post ∧
    pair.Covers pg.insns pc ∧ ∀ entry ∈ pre, ¬ entry.1.Covers pg.insns pc

/-- An exception raised here finds its handler at the right depth. -/
def RaiseBalanced (t : Tag) : Prop :=
  ∀ r, (openRanges t.nest).head? = some r →
    if t.origin = .throwStatement then ThrowBalanced r t.nest else HandlerBalanced r t.nest

/-- A step comes out at the right depth. -/
def Balanced (p : Point (Insn E) ℕ Tag) : Outcome ℕ → Prop
  | .next => True
  | .jump _ => ∀ change name, p.tag.origin = .jump change name →
      JumpBalanced change name p.tag.nest
  | .raise => RaiseBalanced p.tag

/-- Runs of a function from its start, whose steps are balanced. -/
abbrev BalancedRun (pg : PandaGen E) (pc n : ℕ) : Prop :=
  FlatCode.Run Executes (handlers pg) pg.insns Balanced (0, 0) (pc, n)

section Steps

variable {t : Tag} {a b n n' : ℕ} {i : Insn E} {l : Label}

theorem Goes.exec_next (h : Goes t a i b) (hexec : i.exec .next a = some n) : n = b := by
  cases h with
  | move => exact (Option.some.inj hexec).symm
  | createLexEnv => exact (Option.some.inj hexec).symm
  | popLexicalEnv => exact (Option.some.inj hexec).symm
  | code => exact (Option.some.inj hexec).symm
  | operation => exact (Option.some.inj hexec).symm
  | condition => exact (Option.some.inj hexec).symm
  | branch => cases hexec
  | jump => cases hexec
  | throw => cases hexec
  | throwStatement => cases hexec
  | «return» => cases hexec

theorem Goes.exec_jump (h : Goes t a i b) (hexec : i.exec (.jump l) a = some n) :
    n = a ∧ (a = l.note ↔ ∀ change name, t.origin = .jump change name →
      JumpBalanced change name t.nest) := by
  cases h with
  | branch horigin =>
    obtain ⟨rfl, rfl⟩ : l = _ ∧ _ = n := by simpa [Insn.exec] using hexec
    simp [horigin]
  | condition horigin =>
    obtain ⟨rfl, rfl⟩ : l = _ ∧ _ = n := by simpa [Insn.exec] using hexec
    simp [horigin]
  | jump hnest horigin hfind hl hlive =>
    obtain ⟨rfl, rfl⟩ : l = _ ∧ _ = n := by simpa [Insn.exec] using hexec
    refine ⟨rfl, ?_⟩
    rw [jumpBalanced_iff hnest hfind hl hlive, horigin]
    refine ⟨?_, fun h => h _ _ rfl⟩
    rintro h change name ⟨⟩
    exact h
  | _ => cases hexec

/-- An exception finds its handler at its depth, where the counters are right. -/
theorem Goes.exec_raise (h : Goes t a i b) (hexec : i.exec .raise a = some n) {r : Range}
    (hr : (openRanges t.nest).head? = some r) :
    n = a ∧ (a = r.handler.note ↔ RaiseBalanced t) := by
  have hmem : r ∈ openRanges t.nest := List.mem_of_mem_head? hr
  have himplicit (hnest : Nested t.nest) (horigin : t.origin = .other) :
      envCount t.nest = r.handler.note ↔ RaiseBalanced t := by
    simp [RaiseBalanced, hr, horigin, handlerBalanced_iff hnest hmem]
  cases h with
  | code hnest horigin => exact ⟨(Option.some.inj hexec).symm, himplicit hnest horigin⟩
  | operation hnest horigin => exact ⟨(Option.some.inj hexec).symm, himplicit hnest horigin⟩
  | throw hnest horigin => exact ⟨(Option.some.inj hexec).symm, himplicit hnest horigin⟩
  | throwStatement hnest horigin hlive =>
    refine ⟨(Option.some.inj hexec).symm, ?_⟩
    rw [openRanges_eq_map] at hr
    obtain ⟨⟨s, level⟩, hs, rfl⟩ : ∃ x, (tries (lexical t.nest)).head? = some x ∧ x.1 = r := by
      simpa using hr
    obtain ⟨outer, houter⟩ := List.head?_eq_some_iff.mp hs
    rw [throwBalanced_iff hnest houter (hlive _ _ _ houter)]
    simp [RaiseBalanced, openRanges_eq_map, houter, horigin]
  | move => cases hexec
  | createLexEnv => cases hexec
  | popLexicalEnv => cases hexec
  | branch => cases hexec
  | jump => cases hexec
  | condition => cases hexec
  | «return» => cases hexec

end Steps

theorem flatMap_eq_append_cons {α β : Type} {f : α → List β} {l : List α} {pre post : List β}
    {x : β} (h : l.flatMap f = pre ++ x :: post) :
    ∃ l₁ a l₂ m₁ m₂, l = l₁ ++ a :: l₂ ∧ f a = m₁ ++ x :: m₂ ∧ pre = l₁.flatMap f ++ m₁ := by
  induction l generalizing pre with
  | nil => simp at h
  | cons a l ih =>
    rw [List.flatMap_cons] at h
    rcases List.append_eq_append_iff.mp h with ⟨pre', rfl, hrest⟩ | ⟨rest, hfa, hrest⟩
    · obtain ⟨l₁, a', l₂, m₁, m₂, rfl, hfa, rfl⟩ := ih hrest
      exact ⟨a :: l₁, a', l₂, m₁, m₂, rfl, hfa, by simp⟩
    · cases rest with
      | nil =>
        obtain ⟨l₁, a', l₂, m₁, m₂, rfl, hfa', hpre⟩ := @ih [] hrest.symm
        have hm₁ : l₁.flatMap f = [] ∧ m₁ = [] := List.append_eq_nil_iff.mp hpre.symm
        refine ⟨a :: l₁, a', l₂, m₁, m₂, rfl, hfa', ?_⟩
        simp [hm₁, hfa]
      | cons y rest =>
        obtain ⟨rfl, -⟩ := List.cons.inj hrest
        exact ⟨[], a, l, pre, rest, rfl, hfa, rfl⟩

section Runs

variable {s : Stmts E} {pg : PandaGen E} {pc n : ℕ} {p : Point (Insn E) ℕ Tag} {l : Label}

theorem exists_table (h : compileFunctionBody s = some pg) (hp : pg.insns[pc]? = some p)
    {r : Range} (hr : r ∈ openRanges p.tag.nest) : ∃ t ∈ pg.catchMap, t.range = r := by
  have hmem : r ∈ p.ranges := (sound_of_getElem? h hp).ranges ▸ hr
  have hranges := (emits_compileFunctionBody h).ranges_mem (by simp) p (List.mem_of_getElem? hp)
  exact List.mem_map.mp (hranges r hmem)

/-- The entry that comes first is one of the innermost try statement. -/
theorem head?_of_handlers (h : compileFunctionBody s = some pg) (hp : pg.insns[pc]? = some p)
    (hl : handlers pg pc l) : ∃ r, (openRanges p.tag.nest).head? = some r ∧ r.handler = l := by
  obtain ⟨pre, pair, post, heq, hcovers, hpre⟩ := hl
  obtain ⟨ts, t, ts', m₁, m₂, htables, hm, rfl⟩ := flatMap_eq_append_cons heq
  obtain ⟨pairs, rest, hpairs, -, hm₂⟩ := List.map_eq_append_iff.mp hm
  obtain ⟨pair', pairs', rfl, heq', -⟩ := List.map_eq_cons_iff.mp hm₂
  obtain ⟨rfl, rfl⟩ := Prod.mk.inj heq'
  obtain ⟨-, hperm, hordered⟩ := catchTables_cover s pg h
  have ht : t ∈ pg.catchMap := hperm.mem_iff.mp (by simp [htables])
  have htc : ∃ pair ∈ t.labelPairs, pair.Covers pg.insns pc := ⟨pair', by simp [hpairs], hcovers⟩
  have htopen := (covers_iff_mem_openRanges h ht hp).mp htc
  obtain ⟨r, rs, hopen⟩ := List.exists_cons_of_ne_nil (List.ne_nil_of_mem htopen)
  refine ⟨r, by rw [hopen]; rfl, ?_⟩
  rw [hopen] at htopen
  rcases List.mem_cons.mp htopen with heq | hrs
  · exact heq ▸ rfl
  -- an inner try statement would have come first
  have hsound := sound_of_getElem? h hp
  have hdepth := hopen ▸ hsound.wellNested.pairwise
  have hlt := (List.pairwise_cons.mp hdepth).1 _ hrs
  have hr : r ∈ openRanges p.tag.nest := by rw [hopen]; exact .head _
  obtain ⟨t', ht', rfl⟩ := exists_table h hp hr
  obtain ⟨q, hq, hqc⟩ := (covers_iff_mem_openRanges h ht' hp).mpr hr
  have hmem : t' ∈ ts ++ t :: ts' := htables ▸ hperm.mem_iff.mpr ht'
  rcases List.mem_append.mp hmem with hmem | hmem
  · refine absurd hqc (hpre (q, t'.catchBeginLabel) (List.mem_append_left _ ?_))
    exact List.mem_flatMap.mpr ⟨t', hmem, List.mem_map_of_mem hq⟩
  · rcases List.mem_cons.mp hmem with rfl | hmem
    · exact absurd hlt (Nat.lt_irrefl _)
    · rw [htables] at hordered
      have hinside := (List.pairwise_cons.mp (List.pairwise_append.mp hordered).2.1).1 t' hmem pc p hp
        htc ⟨q, hq, hqc⟩
      have htopen := (covers_iff_mem_openRanges h ht hp).mp htc
      rw [hsound.wellNested.tryBlock_mem_inside (tryBlock_mem hr) (tryBlock_mem htopen)] at hinside
      exact absurd hinside (Nat.lt_asymm hlt)

theorem typed_compileFunctionBody (h : compileFunctionBody s = some pg) :
    FlatCode.Typed effect (handlers pg) pg.insns where
  label := fun p hp l hl => (((emits_compileFunctionBody h).sound p hp).label l hl).1
  insn := by
    intro p hp i hi
    have hsound := (emits_compileFunctionBody h).sound p hp
    obtain ⟨b, hb⟩ := hsound.insn i hi
    exact ⟨b, hsound.ranges.symm, hb⟩
  handler := by
    intro pc p l hp hl
    obtain ⟨r, hr, hrl⟩ := head?_of_handlers h hp hl
    exact ⟨r, (sound_of_getElem? h hp).ranges ▸ hr, hrl⟩

theorem preserves_depth :
    FlatCode.Preserves effect Eq (Executes (E := E)) Balanced fun a n => n = a where
  le := fun hab hn => hab ▸ hn
  next := by
    rintro p i b n n' - ⟨-, hg⟩ rfl hexec -
    exact hg.exec_next hexec
  jump := by
    rintro p i b l n n' - ⟨-, hg⟩ rfl hexec hok
    obtain ⟨rfl, hiff⟩ := hg.exec_jump hexec
    exact hiff.mpr hok
  raise := by
    rintro p i b r n n' - ⟨hK, hg⟩ rfl hexec hok hr
    obtain ⟨rfl, hiff⟩ := hg.exec_raise hexec (hK ▸ hr)
    exact hiff.mpr hok

theorem live_eq_note (h : compileFunctionBody s = some pg) (hrun : BalancedRun pg pc n)
    (hp : pg.insns[pc]? = some p) : n = p.note := by
  have hflows : FlatCode.Flows effect Eq 0 pg.insns pg.live := (emits_compileFunctionBody h).flows
  exact hflows.sound (typed_compileFunctionBody h) preserves_depth rfl hrun hp

theorem note_eq_envCount (h : compileFunctionBody s = some pg) (hp : p ∈ pg.insns)
    (hl : p.node = .label l) : l.note = envCount p.tag.nest :=
  (((emits_compileFunctionBody h).sound p hp).label l hl).2.note

/-- The environments alive behind points that are passed one after the other. -/
def runThrough : List (Point (Insn E) ℕ Tag) → ℕ → Option ℕ
  | [], n => some n
  | p :: ps, n => match p.node with
    | .insn i => (i.exec .next n).bind (runThrough ps)
    | _ => runThrough ps n

theorem runThrough_append (ps ps' : List (Point (Insn E) ℕ Tag)) (n : ℕ) :
    runThrough (ps ++ ps') n = (runThrough ps n).bind (runThrough ps') := by
  induction ps generalizing n with
  | nil => rfl
  | cons p ps ih =>
    simp only [List.cons_append, runThrough]
    split
    · rename_i i _
      cases i.exec .next n with
      | none => rfl
      | some n' => exact ih n'
    · exact ih n

theorem balancedRun_of_runThrough (hpc : pc ≤ pg.insns.length)
    (hn : runThrough (pg.insns.take pc) 0 = some n) : BalancedRun pg pc n := by
  induction pc generalizing n with
  | zero =>
    obtain rfl : 0 = n := by simpa [runThrough] using hn
    exact .refl
  | succ pc ih =>
    have hp : pg.insns[pc]? = some pg.insns[pc] := List.getElem?_eq_getElem hpc
    rw [List.take_add_one, hp, runThrough_append] at hn
    obtain ⟨n', hn', hstep⟩ := Option.bind_eq_some_iff.mp hn
    refine (ih (Nat.le_of_lt hpc) hn').tail ⟨pg.insns[pc], .next, ?_, trivial⟩
    simp only [Option.toList_some, runThrough] at hstep
    split at hstep
    · rename_i i hi
      obtain ⟨n'', hexec, heq⟩ := Option.bind_eq_some_iff.mp hstep
      cases heq
      exact .next hp hi hexec
    · cases hstep
      exact .pass hp (by assumption)

end Runs

/-- A balanced run finds each label at the depth of its nest. The jump of a break or continue
statement has popped what brings it to the depth of its label exactly where the counters of
the targets are right. -/
theorem jump_depth_iff (s : Stmts E) (pg : PandaGen E) (h : compileFunctionBody s = some pg)
    (pc n : ℕ) (hrun : BalancedRun pg pc n) (p : Point (Insn E) ℕ Tag)
    (hp : pg.insns[pc]? = some p) :
    (∀ l, p.node = .label l → n = l.note ∧ l.note = envCount p.tag.nest) ∧
    ∀ change name l, p.tag.origin = .jump change name → p.node = .insn (.branch l) →
      (∀ q ∈ pg.insns, q.node = .label l → l.note = envCount q.tag.nest) ∧
        (n = l.note ↔ JumpBalanced change name p.tag.nest) := by
  obtain rfl := live_eq_note h hrun hp
  have hsound := sound_of_getElem? h hp
  refine ⟨fun l hl => ?_, fun change name l horigin hl => ⟨fun q hq => note_eq_envCount h hq, ?_⟩⟩
  · exact ⟨(hsound.label l hl).1, note_eq_envCount h (List.mem_of_getElem? hp) hl⟩
  · obtain ⟨b, hb⟩ := hsound.insn _ hl
    have hexec : (Insn.branch l : Insn E).exec (.jump l) p.note = some p.note := by
      simp [Insn.exec]
    rw [(hb.exec_jump hexec).2, horigin]
    refine ⟨fun h => h _ _ rfl, ?_⟩
    rintro h change name ⟨⟩
    exact h

/-- `a: { do { let x; () => x; break a; } while (1); }`; the loop has an environment. -/
def breakOutOfLoop : Stmts ℕ :=
  .cons (.labeled "a" (.block [] (.cons (.doWhile true (.break (some "a")) (.other 1)) .nil))) .nil

/-- Its code. -/
def breakOutOfLoopCode : PandaGen ℕ := (compileFunctionBody breakOutOfLoop).getD PandaGen.empty

theorem compile_breakOutOfLoop : compileFunctionBody breakOutOfLoop = some breakOutOfLoopCode := by
  have hsome : (compileFunctionBody breakOutOfLoop).isSome := by decide +kernel
  obtain ⟨pg, hpg⟩ := Option.isSome_iff_exists.mp hsome
  simp [breakOutOfLoopCode, hpg]

theorem jump_depth_iff_breakOutOfLoop : ∃ p, breakOutOfLoopCode.insns[2]? = some p ∧
    ¬ JumpBalanced .break (some 0) p.tag.nest := by
  have hp : (breakOutOfLoopCode.insns[2]?).map (fun p => (p.tag.origin, p.node)) =
      some (.jump .break (some 0), .insn (.branch ⟨0, 0⟩)) := by decide +kernel
  obtain ⟨p, hp, heq⟩ := Option.map_eq_some_iff.mp hp
  obtain ⟨horigin, hnode⟩ := Prod.mk.inj heq
  have hrun : BalancedRun breakOutOfLoopCode 2 1 :=
    balancedRun_of_runThrough (by decide +kernel) (by decide +kernel)
  have hiff := ((jump_depth_iff breakOutOfLoop breakOutOfLoopCode compile_breakOutOfLoop 2 1 hrun p
    hp).2 .break (some 0) ⟨0, 0⟩ horigin hnode).2
  exact ⟨p, hp, fun hbalanced => absurd (hiff.mpr hbalanced) (by decide)⟩

/-- The `break` goes to the end of the labelled block with the environment of the loop still there,
although nothing has gone wrong before. -/
theorem not_jump_depth : ¬ ∀ (s : Stmts ℕ) (pg : PandaGen ℕ), compileFunctionBody s = some pg →
    ∀ pc n, BalancedRun pg pc n → ∀ p : Point (Insn _) ℕ Tag, pg.insns[pc]? = some p → ∀ change name l,
      p.tag.origin = .jump change name → p.node = .insn (.branch l) → n = l.note := by
  intro h
  have hp : (breakOutOfLoopCode.insns[2]?).map (fun p => (p.tag.origin, p.node)) =
      some (.jump .break (some 0), .insn (.branch ⟨0, 0⟩)) := by decide +kernel
  obtain ⟨p, hp, heq⟩ := Option.map_eq_some_iff.mp hp
  obtain ⟨horigin, hnode⟩ := Prod.mk.inj heq
  have hrun : BalancedRun breakOutOfLoopCode 2 1 :=
    balancedRun_of_runThrough (by decide +kernel) (by decide +kernel)
  have hdepth := h breakOutOfLoop breakOutOfLoopCode compile_breakOutOfLoop 2 1 hrun p hp _ _ _
    horigin hnode
  exact absurd hdepth (by decide)

/-- A finalizer that is compiled in place of a jump runs at the depth of its try statement exactly
where no loop with an environment stands between the jump and the try block. -/
theorem inlined_depth_iff (s : Stmts E) (pg : PandaGen E) (h : compileFunctionBody s = some pg)
    (pc n : ℕ) (hrun : BalancedRun pg pc n) (p : Point (Insn E) ℕ Tag)
    (hp : pg.insns[pc]? = some p) (l : Label) (hl : p.node = .label l)
    (horigin : p.tag.origin = .inlineFinallyBegin) :
    ∃ r nest, p.tag.nest = .finalizer r :: nest ∧ (n = r.handler.note ↔ HandlerBalanced r nest) := by
  obtain rfl := live_eq_note h hrun hp
  obtain ⟨hnote, hmarks⟩ := (sound_of_getElem? h hp).label l hl
  obtain ⟨r, nest, hnest, hnested⟩ := hmarks.inlined horigin
  have hlive : p.note = envCount nest := by
    rw [hnote, hmarks.note, hnest]
    rfl
  rw [hnest] at hnested
  exact ⟨r, nest, hnest, hlive ▸ handlerBalanced_iff hnested.2 hnested.1⟩

/-- `try { do { let x; () => x; return; } while (1); } finally { 2; }`; the loop has an
environment. -/
def returnOutOfLoop : Stmts ℕ :=
  .cons (.tryFinally (.doWhile true (.return none none) (.other 1)) (.expression 2)) .nil

/-- Its code. -/
def returnOutOfLoopCode : PandaGen ℕ := (compileFunctionBody returnOutOfLoop).getD PandaGen.empty

theorem compile_returnOutOfLoop :
    compileFunctionBody returnOutOfLoop = some returnOutOfLoopCode := by
  have hsome : (compileFunctionBody returnOutOfLoop).isSome := by decide +kernel
  obtain ⟨pg, hpg⟩ := Option.isSome_iff_exists.mp hsome
  simp [returnOutOfLoopCode, hpg]

theorem returnOutOfLoop_point : ∃ p, returnOutOfLoopCode.insns[4]? = some p ∧
    p.node = .label ⟨7, 1⟩ ∧ p.tag.origin = .inlineFinallyBegin ∧
    p.tag.nest.head? = some (.finalizer ⟨2, 0, ⟨2, 0⟩⟩) ∧ BalancedRun returnOutOfLoopCode 4 1 := by
  have hp : (returnOutOfLoopCode.insns[4]?).map (fun p => (p.node, p.tag.origin, p.tag.nest.head?)) =
      some (.label ⟨7, 1⟩, .inlineFinallyBegin, some (.finalizer ⟨2, 0, ⟨2, 0⟩⟩)) := by
    decide +kernel
  obtain ⟨p, hp, heq⟩ := Option.map_eq_some_iff.mp hp
  have hrun : BalancedRun returnOutOfLoopCode 4 1 :=
    balancedRun_of_runThrough (by decide +kernel) (by decide +kernel)
  simp only [Prod.mk.injEq] at heq
  exact ⟨p, hp, heq.1, heq.2.1, heq.2.2, hrun⟩

theorem inlined_depth_iff_returnOutOfLoop : ∃ p r nest, returnOutOfLoopCode.insns[4]? = some p ∧
    p.tag.nest = .finalizer r :: nest ∧ (1 = r.handler.note ↔ HandlerBalanced r nest) := by
  obtain ⟨p, hp, hnode, horigin, -, hrun⟩ := returnOutOfLoop_point
  obtain ⟨r, nest, hiff⟩ := inlined_depth_iff returnOutOfLoop returnOutOfLoopCode
    compile_returnOutOfLoop 4 1 hrun p hp ⟨7, 1⟩ hnode horigin
  exact ⟨p, r, nest, hp, hiff⟩

/-- The finalizer runs with the environment of the loop still there, although nothing has gone
wrong before. -/
theorem not_inlined_depth : ¬ ∀ (s : Stmts ℕ) (pg : PandaGen ℕ), compileFunctionBody s = some pg →
    ∀ pc n, BalancedRun pg pc n → ∀ p : Point (Insn _) ℕ Tag, pg.insns[pc]? = some p → ∀ l, p.node = .label l →
      p.tag.origin = .inlineFinallyBegin → ∀ r, p.tag.nest.head? = some (.finalizer r) →
        n = r.handler.note := by
  intro h
  obtain ⟨p, hp, hnode, horigin, hnest, hrun⟩ := returnOutOfLoop_point
  have hdepth := h returnOutOfLoop returnOutOfLoopCode compile_returnOutOfLoop 4 1 hrun p hp _ hnode
    horigin _ hnest
  exact absurd hdepth (by decide)

/-- An exception enters its handler at the depth that the handler is compiled for exactly where
the throw statement, or the lack of one, has popped what the try block has pushed. -/
theorem handler_depth_iff (s : Stmts E) (pg : PandaGen E) (h : compileFunctionBody s = some pg)
    (pc n : ℕ) (hrun : BalancedRun pg pc n) (p : Point (Insn E) ℕ Tag)
    (hp : pg.insns[pc]? = some p) (i : Insn E) (hi : p.node = .insn i) (n' : ℕ)
    (hexec : i.exec .raise n = some n') (l : Label) (hl : handlers pg pc l) :
    (∀ q ∈ pg.insns, q.node = .label l → l.note = envCount q.tag.nest) ∧
      (n' = l.note ↔ RaiseBalanced p.tag) := by
  obtain rfl := live_eq_note h hrun hp
  obtain ⟨b, hb⟩ := (sound_of_getElem? h hp).insn i hi
  obtain ⟨r, hr, rfl⟩ := head?_of_handlers h hp hl
  obtain ⟨rfl, hiff⟩ := hb.exec_raise hexec hr
  exact ⟨fun q hq => note_eq_envCount h hq, hiff⟩

/-- `try { do { let x; () => x; 1; } while (2); } catch { }`; the loop has an environment. -/
def raiseInLoop : Stmts ℕ :=
  .cons (.tryCatch (.doWhile true (.expression 1) (.other 2)) none .nil) .nil

/-- Its code. -/
def raiseInLoopCode : PandaGen ℕ := (compileFunctionBody raiseInLoop).getD PandaGen.empty

theorem compile_raiseInLoop : compileFunctionBody raiseInLoop = some raiseInLoopCode := by
  have hsome : (compileFunctionBody raiseInLoop).isSome := by decide +kernel
  obtain ⟨pg, hpg⟩ := Option.isSome_iff_exists.mp hsome
  simp [raiseInLoopCode, hpg]

theorem raiseInLoop_point : ∃ p, raiseInLoopCode.insns[3]? = some p ∧ p.node = .insn (.code 1) ∧
    handlers raiseInLoopCode 3 ⟨2, 0⟩ ∧ BalancedRun raiseInLoopCode 3 1 := by
  have hp : (raiseInLoopCode.insns[3]?).map Point.node = some (.insn (.code 1)) := by decide +kernel
  have hmap : raiseInLoopCode.catchMap = [⟨⟨2, 0⟩, [⟨⟨0, 0⟩, ⟨1, 0⟩⟩], 0⟩] := by decide +kernel
  have hends : FlatCode.nodeAt raiseInLoopCode.insns 0 = some (.label ⟨0, 0⟩) ∧
      FlatCode.nodeAt raiseInLoopCode.insns 11 = some (.label ⟨1, 0⟩) := by
    unfold FlatCode.nodeAt
    decide +kernel
  have hrun : BalancedRun raiseInLoopCode 3 1 :=
    balancedRun_of_runThrough (by decide +kernel) (by decide +kernel)
  obtain ⟨p, hp, hnode⟩ := Option.map_eq_some_iff.mp hp
  refine ⟨p, hp, hnode, ⟨[], ⟨⟨0, 0⟩, ⟨1, 0⟩⟩, [], ?_, ?_, by simp⟩, hrun⟩
  · simp [catchTableEntries, generateCatchTables, hmap]
  · exact ⟨0, 11, hends.1, hends.2, by decide, by decide⟩

theorem handler_depth_iff_raiseInLoop :
    ∃ p, raiseInLoopCode.insns[3]? = some p ∧ (1 = 0 ↔ RaiseBalanced p.tag) := by
  obtain ⟨p, hp, hnode, hhandler, hrun⟩ := raiseInLoop_point
  exact ⟨p, hp, (handler_depth_iff raiseInLoop raiseInLoopCode compile_raiseInLoop 3 1 hrun p hp
    (.code 1) hnode 1 rfl ⟨2, 0⟩ hhandler).2⟩

/-- What the expression throws is caught with the environment of the loop still there, although
nothing has gone wrong before. -/
theorem not_handler_depth : ¬ ∀ (s : Stmts ℕ) (pg : PandaGen ℕ), compileFunctionBody s = some pg →
    ∀ pc n, BalancedRun pg pc n → ∀ p : Point (Insn _) ℕ Tag, pg.insns[pc]? = some p → ∀ i, p.node = .insn i →
      ∀ n', i.exec .raise n = some n' → ∀ l, handlers pg pc l → n' = l.note := by
  intro h
  obtain ⟨p, hp, hnode, hhandler, hrun⟩ := raiseInLoop_point
  have hdepth := h raiseInLoop raiseInLoopCode compile_raiseInLoop 3 1 hrun p hp _ hnode 1 rfl _
    hhandler
  exact absurd hdepth (by decide)

end ArkTs2abc.Ts2panda.Compiler
