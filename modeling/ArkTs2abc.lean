import ArkTs2abc.Branches.SwitchResults
import ArkTs2abc.Es2panda.Binder.ExportAnalysis
import ArkTs2abc.Es2panda.Checker.SignatureAssignment
import ArkTs2abc.Es2panda.Checker.Termination
import ArkTs2abc.Es2panda.Checker.TreeSearch
import ArkTs2abc.Es2panda.Checker.UnionResults
import ArkTs2abc.Es2panda.Compiler.CompileQueueResults
import ArkTs2abc.Es2panda.Compiler.JumpTargets
import ArkTs2abc.Es2panda.Compiler.LexicalRuns
import ArkTs2abc.Es2panda.Compiler.ParameterBindingResults
import ArkTs2abc.Es2panda.Compiler.PrologueHomes
import ArkTs2abc.Es2panda.Compiler.PropertyKey
import ArkTs2abc.Es2panda.Compiler.RangeSpill
import ArkTs2abc.Es2panda.Compiler.ScopeDebugInfo
import ArkTs2abc.Es2panda.Destructuring.Array
import ArkTs2abc.Es2panda.Exits.ForAwait
import ArkTs2abc.Es2panda.Lexer.ConvertNumber
import ArkTs2abc.Es2panda.Lexer.SourceLocation
import ArkTs2abc.Es2panda.ObjectLiteral.Results
import ArkTs2abc.Es2panda.Parser.Arguments
import ArkTs2abc.Es2panda.Parser.ExpressionResults
import ArkTs2abc.Es2panda.Parser.JumpStatements
import ArkTs2abc.Es2panda.PatternConversion
import ArkTs2abc.Es2panda.RegExp.GroupName
import ArkTs2abc.Es2panda.RegExp.GroupReference
import ArkTs2abc.Es2panda.RegExp.PropertyEscape
import ArkTs2abc.Es2panda.Util.StringIterator
import ArkTs2abc.ExceptionalExit
import ArkTs2abc.References.Update
import ArkTs2abc.TemplateLiterals
import ArkTs2abc.Ts2panda.ArrayLiteral
import ArkTs2abc.Ts2panda.DebugInfo
import ArkTs2abc.Ts2panda.Declarations.ConflictResults
import ArkTs2abc.Ts2panda.DerivedReturn
import ArkTs2abc.Ts2panda.ForOf.Protocol
import ArkTs2abc.Ts2panda.Generator.ReturnResumption
import ArkTs2abc.Ts2panda.InternalNames
import ArkTs2abc.Ts2panda.LexicalDepth
import ArkTs2abc.Ts2panda.LiteralKeys
import ArkTs2abc.Ts2panda.Module.ModuleEnvironment
import ArkTs2abc.Ts2panda.OctalEscape
import ArkTs2abc.Ts2panda.ParseString
import ArkTs2abc.Ts2panda.Pipe
import ArkTs2abc.Ts2panda.SuperCall
import ArkTs2abc.Ts2panda.TmpVregs
