import ArkTs2abc.Es2panda.Checker.Assignable

/-!
# The memory of the relation

Every result that the relation remembers for identity is right, so `IsIdenticalTo` answers as if it
remembered nothing.

## Main definitions

* `Relation.Sound` — the remembered identities are right.
* `Relation.Reached` — the checker comes to a memory by comparisons and marks.

## Main results

* `identity_memoized` — the relation answers for identity as the trees of comparisons do.
* `Relation.Reached.sound` — every memory that is come to is sound.
-/

namespace Es2panda.Checker

open NestedCalls

variable {τ : Type} [DecidableEq τ] (node : τ → TypeNode τ)

/-- The remembered identities are right. -/
def Relation.Sound (st : Relation τ) : Prop :=
  ∀ s t result r, st.identicalResults s t = some r →
    TreeAnswers (identityTree node) (.isIdenticalTo result s t) r

theorem Relation.sound_empty : Relation.Sound node Relation.empty := by
  intro s t result r h
  cases h

theorem insertResult_eq (cached : τ → τ → Option RelationResult) (source target : τ)
    (r : RelationResult) {s t : τ} {a : RelationResult}
    (h : Relation.insertResult cached source target r s t = some a) :
    cached s t = some a ∨ (s = source ∧ t = target ∧ a = r) := by
  unfold Relation.insertResult at h
  by_cases heq : s = source ∧ t = target
  · rw [if_pos heq] at h
    cases hc : cached s t with
    | none =>
      rw [hc] at h
      exact .inr ⟨heq.1, heq.2, (Option.some.inj h).symm⟩
    | some b =>
      rw [hc] at h
      exact .inl h
  · rw [if_neg heq] at h
    exact .inl h

theorem treeAnswers_isIdenticalTo {result result' : RelationResult} {s t : τ} {r : RelationResult}
    (h : TreeAnswers (identityTree node) (.isIdenticalTo result s t) r) :
    TreeAnswers (identityTree node) (.isIdenticalTo result' s t) r := by
  have hr := treeAnswers_iff.1 h
  rw [identityTree] at hr
  apply treeAnswers_iff.2
  rwa [identityTree]

theorem Relation.Sound.insertIdentical {st : Relation τ} (hs : st.Sound node) {s t : τ}
    {result r : RelationResult} (h : TreeAnswers (identityTree node) (.isIdenticalTo result s t) r) :
    (st.insertIdentical s t r).Sound node := by
  intro s' t' result' r' hr
  rcases insertResult_eq _ _ _ _ hr with hold | ⟨rfl, rfl, rfl⟩
  · exact hs s' t' result' r' hold
  · exact treeAnswers_isIdenticalTo node h

theorem cacheLookup_eq (result : RelationResult) (cached : Option RelationResult) :
    cacheLookup result cached = .cacheMiss ∨
      cached = some (cacheLookup result cached) := by
  unfold cacheLookup
  split
  · left
    assumption
  · split <;> simp

theorem identity_memoized :
    Memoizes (identityTree node) (relationBody node) .identity (Relation.Sound node) where
  step := by
    rintro (⟨result, s, t⟩ | ⟨result, t, o⟩) st hs
    · by_cases hst : s = t
      · subst hst
        have htree : identityTree node (.isIdenticalTo result s s) = .ret .true := by
          rw [identityTree, if_pos rfl]
        refine .inl ⟨.true, treeAnswers_iff.2 ?_, fun f => ?_⟩
        · rw [htree]
          exact .ret _
        · rw [relationBody, if_pos rfl]
          rfl
      · by_cases hmiss : cacheLookup result (st.identicalResults s t) = .cacheMiss
        · refine .inr ⟨fun r st => st.insertIdentical s t r, fun f => ?_, fun a st' ha hs' => ?_⟩
          · simp only [relationBody, if_neg hst, Computation.exec, hmiss]
            have hbind := Computation.exec_bind f
              ((identityTree node (.isIdenticalTo result s t)).lift .identity)
              (fun r => .read fun st : Relation τ => .write (st.insertIdentical s t r) (.ret r)) st
            rw [Option.map_eq_bind]
            exact hbind
          · exact hs'.insertIdentical node ha
        · have hhit := (cacheLookup_eq result (st.identicalResults s t)).resolve_left hmiss
          refine .inl ⟨_, hs s t result _ hhit, fun f => ?_⟩
          simp only [relationBody, if_neg hst, Computation.exec]
    · refine .inr ⟨fun _ st => st, fun f => ?_, fun _ _ _ h => h⟩
      rw [relationBody]
      cases ((identityTree node (.identical result t o)).lift Query.identity).exec f st <;> rfl

section Reached

theorem Relation.Sound.of_eq {st st' : Relation τ} (h : st'.identicalResults = st.identicalResults)
    (hs : st.Sound node) : st'.Sound node := by
  intro s t result r hr
  rw [h] at hr
  exact hs s t result r hr

/-- A comparison writes sound memories only, if it reads such. -/
def Relating.Keeps {α : Type} (m : Relating τ α) : Prop :=
  ∀ result, (m result).Keeps (Relation.Sound node)

namespace Relating.Keeps

variable {node} {α β : Type}

theorem pure (a : α) : Keeps node (Pure.pure a : Relating τ α) := by
  intro result
  trivial

theorem bind {m : Relating τ α} {f : α → Relating τ β} (hm : Keeps node m)
    (hf : ∀ a, Keeps node (f a)) : Keeps node (m >>= f) := by
  intro result
  exact (hm result).bind fun p => hf p.1 p.2

theorem ite {p : Prop} [Decidable p] {m m' : Relating τ α} (hm : Keeps node m)
    (hm' : Keeps node m') : Keeps node (if p then m else m') := by
  split
  · exact hm
  · exact hm'

theorem result (b : Bool) : Keeps node (Relating.result b : Relating τ Unit) := by
  intro r
  trivial

theorem isTrue : Keeps node (Relating.isTrue : Relating τ Bool) := by
  intro r
  trivial

theorem isAssignableTo (source target : τ) : Keeps node (Relating.isAssignableTo source target) := by
  intro r a
  trivial

theorem assignmentTargetMethod (target source : τ) :
    Keeps node (Relating.assignmentTargetMethod target source) := by
  intro r a
  trivial

theorem ofSignatures (m : SignatureRelating τ α) : Keeps node (Relating.ofSignatures m) := by
  intro r
  exact Tree.keeps_lift _

theorem isRelationChecked (t : τ) : Keeps node (Relating.isRelationChecked t) := by
  intro r st hs
  trivial

theorem removeRelationChecked (t : τ) : Keeps node (Relating.removeRelationChecked t) := by
  intro r st hs
  exact ⟨Relation.Sound.of_eq node rfl hs, trivial⟩

theorem map {m : Relating τ α} {f : α → β} (hm : Keeps node m) : Keeps node (f <$> m) :=
  bind hm fun _ => pure _

end Relating.Keeps

open Relating.Keeps

variable {node}

theorem UnionType.keeps_assignmentSource (target : τ) (ts : List τ) :
    Relating.Keeps node (UnionType.assignmentSource target ts) := by
  induction ts with
  | nil => exact bind (result true) fun _ => pure true
  | cons t ts ih => exact bind (isAssignableTo t target) fun _ => ite ih (pure false)

theorem UnionType.keeps_assignmentTarget (source : τ) (ts : List τ) :
    Relating.Keeps node (UnionType.assignmentTarget source ts) := by
  induction ts with
  | nil => exact pure ()
  | cons t ts ih => exact bind (isAssignableTo source t) fun _ => ite (pure ()) ih

theorem ArrayType.keeps_assignElements (element : τ) (ps : List (Property τ)) :
    Relating.Keeps node (ArrayType.assignElements element ps) := by
  induction ps with
  | nil => exact result true
  | cons p ps ih => exact bind (isAssignableTo p.tsType element) fun _ => ite ih (pure ())

theorem ObjectType.keeps_indexInfoMisses (info : Option (IndexInfo τ)) (used : Bool)
    (it : Property τ) : Relating.Keeps node (ObjectType.indexInfoMisses info used it) := by
  cases info with
  | none => exact pure false
  | some info => exact ite (bind (isAssignableTo info.infoType it.tsType) fun _ => pure _) (pure false)

theorem ObjectType.keeps_assignProperties (source : ObjectType τ) (excessPropertyCheck : Bool)
    (numberInfo stringInfo : Option (IndexInfo τ)) (ps : List (Property τ)) :
    Relating.Keeps node
      (ObjectType.assignProperties source excessPropertyCheck numberInfo stringInfo ps) := by
  induction ps with
  | nil => exact pure ()
  | cons it ps ih =>
    unfold ObjectType.assignProperties
    cases source.getProperty it.name with
    | some found =>
      refine bind (isRelationChecked found.tsType) fun _ => ite ?_ ?_
      · exact bind (removeRelationChecked found.tsType) fun _ => ih
      · exact bind (isAssignableTo found.tsType it.tsType) fun _ =>
          ite (ite (result false) ih) (pure ())
    | none =>
      refine bind (keeps_indexInfoMisses _ _ it) fun _ => ite (pure ()) ?_
      exact bind (keeps_indexInfoMisses _ _ it) fun _ => ite (pure ()) (ite (result false) ih)

theorem ObjectType.keeps_foundCompatible (target : Signature τ) (sources : List (Signature τ)) :
    Relating.Keeps node (ObjectType.foundCompatible target sources) := by
  induction sources with
  | nil => exact pure false
  | cons source sources ih =>
    refine bind (ofSignatures _) fun _ => bind isTrue fun _ => ite (pure true) ih

theorem ObjectType.keeps_assignSignatures (sources targets : List (Signature τ)) :
    Relating.Keeps node (ObjectType.assignSignatures sources targets) := by
  induction targets with
  | nil => exact pure ()
  | cons target targets ih =>
    exact bind (keeps_foundCompatible target sources) fun _ => ite ih (result false)

theorem ObjectType.keeps_assignIndexInfo (target source : Option (IndexInfo τ)) :
    Relating.Keeps node (ObjectType.assignIndexInfo target source) := by
  cases target with
  | none => exact pure ()
  | some target =>
    cases source with
    | none => exact pure ()
    | some source => exact map (isAssignableTo source.infoType target.infoType)

theorem ObjectType.keeps_assignmentTarget (this : ObjectType τ) (source : TypeNode τ) :
    Relating.Keeps node (this.assignmentTarget source) := by
  unfold ObjectType.assignmentTarget
  cases source with
  | object sourceObj =>
    refine bind (result true) fun _ => bind (keeps_assignProperties _ _ _ _ _) fun _ => ?_
    refine bind isTrue fun _ => ite ?_ (pure ())
    refine bind (keeps_assignSignatures _ _) fun _ => bind isTrue fun _ => ite ?_ (pure ())
    refine bind (keeps_assignSignatures _ _) fun _ => bind isTrue fun _ => ite ?_ (pure ())
    refine bind (keeps_assignIndexInfo _ _) fun _ => bind isTrue fun _ => ite ?_ (pure ())
    exact keeps_assignIndexInfo _ _
  | _ => exact result false

theorem TupleType.keeps_assignElements (targets sources : List (Property τ)) :
    Relating.Keeps node (TupleType.assignElements targets sources) := by
  induction targets generalizing sources with
  | nil => exact pure ()
  | cons target targets ih =>
    cases sources with
    | nil => exact ite (ih []) (result false)
    | cons source sources =>
      exact ite (result false)
        (bind (isAssignableTo source.tsType target.tsType) fun _ => ite (ih sources) (pure ()))

theorem TupleType.keeps_assignmentTarget (this : ObjectType τ) (fixedLength : ℕ)
    (source : TypeNode τ) :
    Relating.Keeps node (TupleType.assignmentTarget this fixedLength source) := by
  unfold TupleType.assignmentTarget
  cases source with
  | object sourceTuple =>
    dsimp only
    cases sourceTuple.kind with
    | tuple minLength _ =>
      refine ite (result false) (bind (result true) fun _ => ?_)
      refine bind (keeps_assignElements _ _) fun _ => bind isTrue fun _ => ite ?_ (pure ())
      exact ObjectType.keeps_assignIndexInfo _ _
    | _ => exact result false
  | _ => exact result false

theorem TypeNode.keeps_assignmentSource (this : TypeNode τ) (target : τ) :
    Relating.Keeps node (this.assignmentSource node target) := by
  unfold TypeNode.assignmentSource
  cases this with
  | any => exact bind (result true) fun _ => pure true
  | never => exact bind (result true) fun _ => pure true
  | null => exact bind (result _) fun _ => isTrue
  | undefined => exact bind (result _) fun _ => isTrue
  | union constituentTypes _ => exact UnionType.keeps_assignmentSource target constituentTypes
  | _ => exact pure false

theorem ArrayType.keeps_assignmentTarget (element source : τ) :
    Relating.Keeps node ((TypeNode.array element).assignmentTarget node source) := by
  unfold TypeNode.assignmentTarget
  dsimp only
  cases node source with
  | array sourceElement => exact map (isAssignableTo sourceElement element)
  | object sourceObj => exact ite (keeps_assignElements element _) (pure ())
  | _ => exact pure ()

theorem TypeNode.keeps_assignmentTarget (this : TypeNode τ) (source : τ) :
    Relating.Keeps node (this.assignmentTarget node source) := by
  cases this with
  | array element => exact ArrayType.keeps_assignmentTarget element source
  | union constituentTypes _ => exact UnionType.keeps_assignmentTarget source constituentTypes
  | object type =>
    unfold TypeNode.assignmentTarget
    dsimp only
    cases type.kind with
    | tuple _ fixedLength => exact TupleType.keeps_assignmentTarget type fixedLength _
    | _ => exact ObjectType.keeps_assignmentTarget type _
  | typeReference ref =>
    cases ref with
    | none => exact pure ()
    | some ref =>
      unfold TypeNode.assignmentTarget
      dsimp only
      split
      · exact assignmentTargetMethod _ _
      · exact assignmentTargetMethod _ _
  | any => exact result true
  | unknown => exact result true
  | never => exact result false
  | void => exact pure ()
  | null => exact pure ()
  | undefined => exact pure ()
  | string => exact ite (result true) (pure ())
  | boolean => exact ite (result true) (pure ())
  | bigint => exact ite (result true) (pure ())
  | nonPrimitive => exact ite (result true) (pure ())
  | stringLiteral _ => exact pure ()
  | bigintLiteral _ _ => exact pure ()
  | booleanLiteral _ => exact pure ()
  | enumType _ _ => exact ite (result true) (pure ())
  | number =>
    unfold TypeNode.assignmentTarget
    dsimp only
    split <;> first | exact result true | exact pure ()
  | numberLiteral value =>
    unfold TypeNode.assignmentTarget
    dsimp only
    split
    · exact ite (result true) (pure ())
    · exact pure ()
  | enumLiteral variableOfType =>
    unfold TypeNode.assignmentTarget
    dsimp only
    split
    · exact ite (result true) (pure ())
    all_goals first | exact result true | exact pure ()

theorem keeps_relationBody {q : Query τ} (hq : ∀ i, q ≠ .identity i) :
    (relationBody node q).Keeps (Relation.Sound node) := by
  cases q with
  | identity i => exact absurd rfl (hq i)
  | assignmentTarget result target source =>
    exact (TypeNode.keeps_assignmentTarget _ source result).bind fun _ => trivial
  | isAssignableTo q =>
    obtain ⟨result, source, target⟩ := q
    intro st hs
    dsimp only [relationBody]
    split
    · intro a
      dsimp only
      split
      · trivial
      · refine Computation.Keeps.bind ?_ fun r st hs => ⟨hs.of_eq node rfl, trivial⟩
        refine bind (TypeNode.keeps_assignmentSource _ target) (fun found => ?_) .false
        exact ite (pure ()) (TypeNode.keeps_assignmentTarget _ source)
    · trivial

theorem Relation.Sound.of_answer {st : Relation τ} (hs : st.Sound node) {n : ℕ} {q : Query τ}
    {r : RelationResult × Relation τ} (h : answer (relationBody node) n q st = some r) :
    r.2.Sound node := by
  induction n generalizing q st r with
  | zero => cases h
  | succ n ih =>
    have hcalls : ∀ {q : Query τ} {st : Relation τ} {r : RelationResult × Relation τ}, st.Sound node →
        answer (relationBody node) n q st = some r → r.2.Sound node := fun hs h => ih hs h
    cases q with
    | identity i => exact ((identity_memoized node).answer_sound hs h).2
    | isAssignableTo q =>
      have hq : ∀ i, Query.isAssignableTo q ≠ .identity i := by simp
      exact (keeps_relationBody hq).exec hcalls hs h
    | assignmentTarget result target source =>
      have hq : ∀ i, Query.assignmentTarget result target source ≠ .identity i := by simp
      exact (keeps_relationBody hq).exec hcalls hs h

variable (node) in
/-- The checker comes to a memory: by a comparison, or where it marks the type of a property of an
object literal. -/
inductive Relation.Reached : Relation τ → Prop where
  | empty : Reached Relation.empty
  | compared {st st' : Relation τ} {q : Query τ} {r : RelationResult} (reached : Reached st)
      (answers : Answers (relationBody node) q st (r, st')) : Reached st'
  | marked {st : Relation τ} (t : τ) (reached : Reached st) : Reached (st.addRelationChecked t)

theorem Relation.Reached.sound {st : Relation τ} (h : Relation.Reached node st) : st.Sound node := by
  induction h with
  | empty => exact Relation.sound_empty node
  | compared _ answers ih =>
    obtain ⟨n, hn⟩ := answers
    exact ih.of_answer hn
  | marked t _ ih => exact ih.of_eq node rfl

end Reached

end Es2panda.Checker
