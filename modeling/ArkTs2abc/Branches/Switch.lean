import ArkTs2abc.Branches.Condition

/-!
# Switch statements in both compilers

The tests and the clauses are compiled one after the other, with a label for each clause between them.
A default clause is known by its index, and index 0 stands for no default clause as well.

## Main definitions

* `SwitchStatement`, `compileSwitchStatement` — the statement and its code.
* `SwitchStatement.evaluate` — the evaluation in the language.
* `Execution.FollowsClauses` — the code does what the evaluation does.
-/

namespace ArkTs2abc.Branches

open FlatCode.Forward

variable {E S V W X : Type}

/-- A case clause, or the default clause if it has no test. -/
structure Clause (E S : Type) where
  test : Option (Expression E)
  statements : List S
  deriving DecidableEq, Repr

structure SwitchStatement (E S : Type) where
  discriminant : Expression E
  cases : List (Clause E S)
  defaults : cases.countP (·.test.isNone) ≤ 1

/-! ### The code -/

namespace Compiler

def condition (c : Compiler) (op : Relation) (lhs ifFalse : ℕ) : Code E S :=
  match c with
  | es2panda => Es2panda.condition op lhs ifFalse
  | ts2panda => Ts2panda.condition op (.temp lhs) ifFalse

/-- The tests, from the clause with an index on: a case that is equal jumps to its label. -/
def jumpIfCases (c : Compiler) (tag : ℕ) (caseLabel : ℕ → ℕ) :
    List (Clause E S) → ℕ → ℕ → Option (Code E S)
  | [], _, _ => some []
  | ⟨none, _⟩ :: clauses, i, n => jumpIfCases c tag caseLabel clauses (i + 1) n
  | ⟨some test, _⟩ :: clauses, i, n => do
    let testCode ← c.compile test (tag + 1) n
    let rest ← jumpIfCases c tag caseLabel clauses (i + 1) (n + test.labels)
    return testCode ++ (c.condition .notStrictEqual tag (caseLabel i) ++ rest)

end Compiler

/-- The variable `defaultIndex` behind the loop over the clauses. -/
def defaultIndex : List (Clause E S) → ℕ → ℕ → ℕ
  | [], _, index => index
  | ⟨none, _⟩ :: clauses, i, _ => defaultIndex clauses (i + 1) i
  | ⟨some _, _⟩ :: clauses, i, index => defaultIndex clauses (i + 1) index

/-- ts2panda counts the default clauses; in es2panda the parser has done so. -/
def Compiler.checkDefaultNum (c : Compiler) (defaultCnt : ℕ) : Option Unit :=
  match c with
  | .es2panda => some ()
  | .ts2panda => if defaultCnt > 1 then none else some ()

/-- `JumpToDefault` or `Break`. -/
def jumpToDefault (caseLabel : ℕ → ℕ) (endLabel index : ℕ) : Insn E S :=
  if index > 0 then .jmp (caseLabel index) else .jmp endLabel

def compileCaseStatements (endLabel : ℕ) (statements : List S) : Code E S :=
  statements.map fun s => .insn (.execute s endLabel)

/-- The clauses from the one with an index on, each behind its label. -/
def compileClauses (caseLabel : ℕ → ℕ) (endLabel : ℕ) : List (Clause E S) → ℕ → Code E S
  | [], _ => []
  | clause :: clauses, i =>
    .label (caseLabel i) :: .insn (.clause i) ::
      (compileCaseStatements endLabel clause.statements ++
        compileClauses caseLabel endLabel clauses (i + 1))

/-- `SwitchStatement::Compile` and `compileSwitchStatement`, with the next register and the next
label: the end label is the first, and the labels of the clauses follow. -/
def compileSwitchStatement (c : Compiler) (stmt : SwitchStatement E S) (reg n : ℕ) :
    Option (Code E S) := do
  let caseLabel i := n + 1 + i
  let next := n + 1 + stmt.cases.length
  let tagCode ← c.compile stmt.discriminant (reg + 1) next
  let tests ← c.jumpIfCases reg caseLabel stmt.cases 0 (next + stmt.discriminant.labels)
  c.checkDefaultNum (stmt.cases.countP (·.test.isNone))
  return tagCode ++ (.insn (.sta reg) :: (tests ++
    (.insn (jumpToDefault caseLabel n (defaultIndex stmt.cases 0 0)) ::
      (compileClauses caseLabel n stmt.cases 0 ++ [.label n]))))

/-! ### The evaluation in the language -/

/-- The first clause from an index on whose test is strictly equal to the discriminant. -/
def select (ops : Operations E S V W X) (v : Value V) :
    List (Clause E S) → ℕ → Memory E S W → Outcome E S W X (Option ℕ)
  | [], _, m => .ok (none, m)
  | ⟨none, _⟩ :: clauses, i, m => select ops v clauses (i + 1) m
  | ⟨some test, _⟩ :: clauses, i, m =>
    (test.evaluate ops m).bind fun (x, m) =>
      if ops.isStrictlyEqual v x then .ok (some i, m) else select ops v clauses (i + 1) m

/-- Statements up to a break, and whether there was one. -/
def executeStatements (ops : Operations E S V W X) :
    List S → Memory E S W → Outcome E S W X Bool
  | [], m => .ok (false, m)
  | s :: statements, m =>
    ((m.note (.executed s)).perform (ops.execute s)).bind fun (breaks, m) =>
      if breaks then .ok (true, m) else executeStatements ops statements m

/-- The clauses from the one with an index on, up to a break. -/
def executeClauses (ops : Operations E S V W X) :
    List (Clause E S) → ℕ → Memory E S W → Except (X × Memory E S W) (Memory E S W)
  | [], _, m => .ok m
  | clause :: clauses, i, m =>
    (executeStatements ops clause.statements (m.note (.clause i))).bind fun (breaks, m) =>
      if breaks then .ok m else executeClauses ops clauses (i + 1) m

namespace SwitchStatement

/-- The clause where the execution starts. -/
def start (stmt : SwitchStatement E S) (selected : Option ℕ) : Option ℕ :=
  selected <|> stmt.cases.findIdx? (·.test.isNone)

def executeFrom (ops : Operations E S V W X) (stmt : SwitchStatement E S) (start : Option ℕ)
    (m : Memory E S W) : Except (X × Memory E S W) (Memory E S W) :=
  match start with
  | none => .ok m
  | some i => executeClauses ops (stmt.cases.drop i) i m

def evaluate (ops : Operations E S V W X) (stmt : SwitchStatement E S) (m : Memory E S W) :
    Except (X × Memory E S W) (Memory E S W) :=
  (stmt.discriminant.evaluate ops m).bind fun (v, m) =>
    (select ops v stmt.cases 0 m).bind fun (selected, m) =>
      stmt.executeFrom ops (stmt.start selected) m

end SwitchStatement

/-- A run of the code of a switch statement. -/
structure Execution (E S V W X : Type) where
  compiler : Compiler
  ops : Operations E S V W X
  stmt : SwitchStatement E S
  reg : ℕ
  next : ℕ
  code : Code E S
  compiles : compileSwitchStatement compiler stmt reg next = some code
  state : State E S V W

namespace Execution

variable (f : Execution E S V W X)

/-- The tests, the clauses and what they do are those of the language's evaluation. -/
def FollowsClauses : Prop :=
  (run f.ops.exec f.code f.state).map (·.memory) = f.stmt.evaluate f.ops f.state.memory

/-- The first clause is the default clause, and no case is equal to the discriminant. -/
def FallsToFirstClause : Prop :=
  (f.stmt.cases.head?.any (·.test.isNone)) = true ∧
    ∃ v m m', f.stmt.discriminant.evaluate f.ops f.state.memory = .ok (v, m) ∧
      select f.ops v f.stmt.cases 0 m = .ok (none, m')

end Execution

end ArkTs2abc.Branches
