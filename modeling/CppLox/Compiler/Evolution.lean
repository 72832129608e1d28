import CppLox.Compiler.Respects
import CppLox.Object.Evolution

/-!
# Compiler — what compiling does to the globals

Whether a source is accepted or not, its compilation lets the table of globals evolve: `identifier`
adds names, and `define_variable` marks a global that is not const.
-/

namespace CppLox

/-- The table of globals evolves. -/
def CompilerState.Evolves (s s' : CompilerState) : Prop := s.context.Evolves s'.context

instance : Allowing CompilerState.Evolves where
  trans h h' := Context.Evolves.trans h h'
  keeps h := by
    rw [CompilerState.Evolves, h.context]
    exact .refl _
  addConstant s _ _ := .refl s.context
  identifier s name := .getGlobal s.context name
  isConst _ _ _ h := .modify
    (.of_not_frozen (fun hfrozen => h hfrozen.2) (fun hconst => absurd hconst h) id id)
  pushCompiler s _ _ _ := .refl s.context
  popCompiler s _ _ _ := .refl s.context

theorem Compiler.compile_evolves (parseReal : ParseReal) {fuel : Nat} {source : Bytes}
    {context : Context} {addr : Addr} {result : Option ObjectFunction} {s : CompilerState}
    (h : compile parseReal fuel source context addr = .ok (result, s)) :
    context.Evolves s.context :=
  compile_respects (R := CompilerState.Evolves) parseReal h

end CppLox
