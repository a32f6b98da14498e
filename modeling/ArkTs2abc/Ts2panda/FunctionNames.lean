import Mathlib.Data.List.Nodup
import Mathlib.Logic.Function.Basic

/-!
# Internal names of functions

The name under which the code of a function is emitted, and by which the place that defines
the function refers to the code. The recorder finds the name that a function has in the
program, and counts how often each such name is found. The driver takes the name as it is
when it is found once. It puts a number in front when the name is found more than once, and
uses the number alone when there is no name. A class constructor always has a number.

## Main definitions

* `FunctionLike` — what the name of a function depends on.
* `recordFuncName` — the name in the program.
* `CompilerDriver` — the numbers that are given out.
* `getFuncInternalName`, `getInternalNameForCtor` — the internal name.
* `Program` — the functions of a program, `Program.emit` — the names their code is emitted
  under, `Program.define` — the names that the places of definition use.
-/

namespace ArkTs2abc.Ts2panda.FunctionNames

/-- What is around a function or class, apart from parentheses. A name is there if it is an
identifier, or for a property a literal. -/
inductive OuterNode where
  | variableDeclaration (name : Option String)
  | binaryExpression (isEquals : Bool) (left : Option String)
  | propertyAssignment (name : Option String)
  | exportAssignment
  | other
  deriving DecidableEq, Repr

structure ClassLike where
  name : Option String
  isDeclaration : Bool
  /-- It has the modifiers `export` and `default`. -/
  exportDefault : Bool
  outerNode : OuterNode
  deriving DecidableEq, Repr

inductive PropertyName where
  | identifier (text : String)
  /-- A string, a number or a computed name. -/
  | other
  deriving DecidableEq, Repr

inductive FunctionKind where
  | constructor (parent : ClassLike)
  | function (isDeclaration exportDefault : Bool) (name : Option PropertyName)
      (outerNode : OuterNode)
  deriving DecidableEq, Repr

/-- A function of the program; a node is its position in the text. -/
structure FunctionLike where
  node : ℕ
  kind : FunctionKind
  deriving DecidableEq, Repr

/-- `getClassNameForConstructor`. -/
def getClassNameForConstructor (classNode : ClassLike) : String :=
  match classNode.name with
  | some name => name
  | none =>
    if classNode.isDeclaration ∧ classNode.exportDefault then "default"
    else
      match classNode.outerNode with
      | .variableDeclaration name => name.getD ""
      | .binaryExpression isEquals left => if isEquals then left.getD "" else ""
      | .propertyAssignment name => name.getD ""
      | .exportAssignment => "default"
      | .other => ""

/-- The name that `recordFuncName` finds, which is empty if there is none. -/
def funcName (f : FunctionLike) : String :=
  match f.kind with
  | .constructor parent => getClassNameForConstructor parent
  | .function _ _ none outerNode =>
    match outerNode with
    | .variableDeclaration name => name.getD ""
    | .binaryExpression isEquals left => if isEquals then left.getD "" else ""
    | .propertyAssignment name =>
      let name := name.getD ""
      if name = "__proto__" then "" else name
    | .exportAssignment | .other => ""
  | .function _ _ (some (.identifier text)) _ => text
  | .function _ _ (some .other) _ => ""

/-- The recorder, of which only `funcNameMap` is left. -/
structure Recorder where
  funcNameMap : String → Option ℕ

namespace Recorder

def init : Recorder := ⟨Function.update (fun _ => none) "main" (some 1)⟩

/-- `recordFuncName`. -/
def recordFuncName (recorder : Recorder) (f : FunctionLike) : Recorder :=
  let name := funcName f
  if name ≠ "" then
    match recorder.funcNameMap name with
    | some nums => ⟨Function.update recorder.funcNameMap name (some (nums + 1))⟩
    | none => ⟨Function.update recorder.funcNameMap name (some 1)⟩
  else recorder

end Recorder

structure CompilerDriver where
  functionId : ℕ
  funcIdMap : List (ℕ × ℕ)
  deriving DecidableEq, Repr

namespace CompilerDriver

variable (driver : CompilerDriver)

/-- The number 0 is reserved for main. -/
def init : CompilerDriver := ⟨1, []⟩

/-- `getFuncId`, of a function. -/
def getFuncId (node : ℕ) : ℕ × CompilerDriver :=
  match driver.funcIdMap.lookup node with
  | some idx => (idx, driver)
  | none => (driver.functionId, ⟨driver.functionId + 1, (node, driver.functionId) :: driver.funcIdMap⟩)

end CompilerDriver

/-- A name with a number in front. -/
def numbered (id : ℕ) (name : String) : String := "#" ++ toString id ++ "#" ++ name

/-- `name.lastIndexOf(c) != -1`. -/
def hasChar (c : Char) (name : String) : Bool := c ∈ name.toList

/-- `getInternalNameForCtor`. -/
def getInternalNameForCtor (driver : CompilerDriver) (classNode : ClassLike) (ctor : ℕ) :
    String × CompilerDriver :=
  let name := getClassNameForConstructor classNode
  let (id, driver) := driver.getFuncId ctor
  let name := numbered id name
  if hasChar '.' name then
    let (id, driver) := driver.getFuncId ctor
    (numbered id "", driver)
  else (name, driver)

/-- Whether a function without a name is the default export. -/
def isDefaultExport (isDeclaration exportDefault : Bool) (outerNode : OuterNode) : Bool :=
  (isDeclaration && exportDefault) || outerNode = .exportAssignment

/-- `getFuncInternalName`, of a function. -/
def getFuncInternalName (recorder : Recorder) (driver : CompilerDriver) (f : FunctionLike) :
    Except String (String × CompilerDriver) :=
  match f.kind with
  | .constructor parent => .ok (getInternalNameForCtor driver parent f.node)
  | .function isDeclaration exportDefault _ outerNode =>
    let name := funcName f
    if name = "" then
      if isDefaultExport isDeclaration exportDefault outerNode then .ok ("default", driver)
      else
        let (id, driver) := driver.getFuncId f.node
        .ok (numbered id "", driver)
    else if name = "func_main_0" then
      let (id, driver) := driver.getFuncId f.node
      .ok (numbered id name, driver)
    else
      match recorder.funcNameMap name with
      | none => .error "the function name is missing from the name map"
      | some freq =>
        let (name, driver) :=
          if freq > 1 then
            let (id, driver) := driver.getFuncId f.node
            (numbered id name, driver)
          else (name, driver)
        if hasChar '.' name || hasChar '\\' name then
          let (id, driver) := driver.getFuncId f.node
          .ok (numbered id "", driver)
        else .ok (name, driver)

/-- The name of the code of the source file itself. -/
def mainName : String := "func_main_0"

/-- The name that the place of a definition uses: a class asks for its constructor. -/
def getDefinitionName (recorder : Recorder) (driver : CompilerDriver) (f : FunctionLike) :
    Except String (String × CompilerDriver) :=
  match f.kind with
  | .constructor parent => .ok (getInternalNameForCtor driver parent f.node)
  | .function _ _ _ _ => getFuncInternalName recorder driver f

/-- Some names, one after the other. -/
def getNames (getName : CompilerDriver → FunctionLike → Except String (String × CompilerDriver)) :
    CompilerDriver → List FunctionLike → Except String (List String × CompilerDriver)
  | driver, [] => .ok ([], driver)
  | driver, f :: functions => do
    let (name, driver) ← getName driver f
    let (names, driver) ← getNames getName driver functions
    .ok (name :: names, driver)

/-- A function without a name that is the default export. -/
def FunctionLike.isDefault (f : FunctionLike) : Bool :=
  match f.kind with
  | .constructor _ => false
  | .function isDeclaration exportDefault _ outerNode =>
    funcName f = "" ∧ isDefaultExport isDeclaration exportDefault outerNode

/-- The functions of a program, in the order in which their code is emitted; the code of the
source file comes after them. A module has one default export at most. -/
structure Program where
  functions : List FunctionLike
  nodup : (functions.map FunctionLike.node).Nodup
  default : ∀ f ∈ functions, ∀ g ∈ functions, f.isDefault → g.isDefault → f = g

namespace Program

variable (p : Program)

/-- The recorder when it has been through the program. -/
def recorder : Recorder := p.functions.foldl Recorder.recordFuncName .init

/-- `addCompilationUnit`, for all functions and then for the source file. -/
def emit : Except String (List String × CompilerDriver) := do
  let (names, driver) ← getNames (getFuncInternalName p.recorder) .init p.functions
  .ok (names ++ [mainName], driver)

/-- The names that are used when the places that define these functions are compiled. -/
def define (driver : CompilerDriver) (uses : List FunctionLike) :
    Except String (List String × CompilerDriver) :=
  getNames (getDefinitionName p.recorder) driver uses

end Program

end ArkTs2abc.Ts2panda.FunctionNames
