import CppLox.Compiler.ProgramCode
import CppLox.Lox.Negation
import CppLox.VM.MapLiterals

/-!
# Lox — the expressions of compiled programs

The results about unary minus, the conditional operator and the literals are about code that
`ExprCode` relates to an expression.  Here they are about `Compiler.compile`: the code of each
expression of an accepted program, at any depth, is in one of the functions of the program.

It is there with its own bytes, or with `MINUS_ONE` for a last byte `ONE`, where the expression ends
the operand of a unary minus.
-/

namespace CppLox

open VMM VM

/-! ### The expressions of a program -/

mutual

/-- An expression and the expressions in it. -/
def Expr.subterms : Expr → List Expr
  | .nil => [.nil]
  | .boolean b => [.boolean b]
  | .integer i => [.integer i]
  | .real bits => [.real bits]
  | .string s => [.string s]
  | .variable x => [.variable x]
  | .assign x e => .assign x e :: e.subterms
  | .not e => .not e :: e.subterms
  | .negate e => .negate e :: e.subterms
  | .binary op l r => .binary op l r :: (l.subterms ++ r.subterms)
  | .and l r => .and l r :: (l.subterms ++ r.subterms)
  | .or l r => .or l r :: (l.subterms ++ r.subterms)
  | .conditional c t e => .conditional c t e :: (c.subterms ++ t.subterms ++ e.subterms)
  | .call callee args => .call callee args :: (callee.subterms ++ args.subterms)
  | .invoke object x args => .invoke object x args :: (object.subterms ++ args.subterms)
  | .property object x => .property object x :: object.subterms
  | .propertySafe object x => .propertySafe object x :: object.subterms
  | .setProperty object x e => .setProperty object x e :: (object.subterms ++ e.subterms)
  | .index object key => .index object key :: (object.subterms ++ key.subterms)
  | .setIndex object key e =>
    .setIndex object key e :: (object.subterms ++ key.subterms ++ e.subterms)
  | .list es => .list es :: es.subterms
  | .map es => .map es :: es.subterms
  | .super x => [.super x]
  | .superInvoke x args => .superInvoke x args :: args.subterms

def Exprs.subterms : Exprs → List Expr
  | .nil => []
  | .cons e es => e.subterms ++ es.subterms

def Entries.subterms : Entries → List Expr
  | .nil => []
  | .cons key value rest => key.subterms ++ value.subterms ++ rest.subterms

end

/-- The expressions in an optional expression. -/
def subtermsOf (e : Option Expr) : List Expr := e.elim [] Expr.subterms

mutual

/-- The expressions in a statement, those in the functions it declares among them. -/
def Stmt.exprs : Stmt → List Expr
  | .empty => []
  | .expression e => e.subterms
  | .print e => e.subterms
  | .var _ init => subtermsOf init
  | .const _ e => e.subterms
  | .function _ _ body => body.exprs
  | .class _ _ methods => methods.exprs
  | .block body => body.exprs
  | .if c t => c.subterms ++ t.exprs
  | .ifElse c t e => c.subterms ++ t.exprs ++ e.exprs
  | .while c b => c.subterms ++ b.exprs
  | .for init c i b => init.exprs ++ (subtermsOf c ++ subtermsOf i) ++ b.exprs
  | .switch e cases => e.subterms ++ cases.exprs
  | .continue => []
  | .return e => subtermsOf e

def Stmts.exprs : Stmts → List Expr
  | .nil => []
  | .cons s ss => s.exprs ++ ss.exprs

def Cases.exprs : Cases → List Expr
  | .nil => []
  | .default body => body.exprs
  | .case label body rest => label.subterms ++ body.exprs ++ rest.exprs

def Methods.exprs : Methods → List Expr
  | .nil => []
  | .cons _ _ body rest => body.exprs ++ rest.exprs

end

/-! ### Where their code is -/

/-- What unary minus leaves of some bytes: all of them, or all but a last byte `ONE`. -/
def LeftAs (bytes left : List UInt8) : Prop :=
  left = bytes ∨
    bytes.getLast? = some OpCode.one.toByte ∧ left = bytes.dropLast ++ [OpCode.minusOne.toByte]

namespace LeftAs

variable {a b c : List UInt8}

theorem refl (a : List UInt8) : LeftAs a a := .inl rfl

theorem trans (h : LeftAs a b) (h' : LeftAs b c) : LeftAs a c := by
  rcases h with rfl | ⟨hlast, rfl⟩
  · exact h'
  rcases h' with rfl | ⟨hlast', -⟩
  · exact .inr ⟨hlast, rfl⟩
  -- a byte that was changed is not changed again
  · rw [List.getLast?_concat] at hlast'
    exact absurd hlast' (by decide)

/-- Bytes in which the last one is another are all left. -/
theorem eq_of_getLast? (h : LeftAs a b) (hne : a.getLast? ≠ some OpCode.one.toByte) : b = a :=
  h.resolve_right fun h' => hne h'.1

/-- All but the last byte are left. -/
theorem exists_concat (h : LeftAs a b) (hne : a ≠ []) : ∃ last, b = a.dropLast ++ [last] := by
  rcases h with rfl | ⟨-, rfl⟩
  · exact ⟨_, (List.dropLast_concat_getLast hne).symm⟩
  · exact ⟨_, rfl⟩

/-- Where bytes are changed, one of the two parts is. -/
theorem append (h : LeftAs (a ++ b) c) : ∃ a' b', LeftAs a a' ∧ LeftAs b b' ∧ c = a' ++ b' := by
  rcases h with rfl | ⟨hlast, rfl⟩
  · exact ⟨a, b, .refl a, .refl b, rfl⟩
  by_cases hb : b = []
  · subst hb
    rw [List.append_nil] at hlast ⊢
    exact ⟨_, [], .inr ⟨hlast, rfl⟩, .refl [], (List.append_nil _).symm⟩
  · rw [List.getLast?_append_of_ne_nil _ hb] at hlast
    refine ⟨a, _, .refl a, .inr ⟨hlast, rfl⟩, ?_⟩
    rw [dropLast_append_of_ne_nil hb, List.append_assoc]

end LeftAs

/-- The code of `e` stands among the bytes of a function, between `before` and `after`. -/
structure StandsIn (E : Env) (Γ : List Slot) (e : Expr) (bytes : List UInt8) (is : List Instr)
    (before left after : List UInt8) : Prop where
  code : ExprCode E Γ e is
  bytes : bytes = before ++ (left ++ after)
  left : LeftAs (encodeAll is) left

/-- The code of `e` is among some bytes with some constants, or in a function among the constants. -/
inductive Emitted (e : Expr) :
    List (Constant ObjectFunction) → List UInt8 → Prop where
  | code {E : Env} {Γ : List Slot} {constants : List (Constant ObjectFunction)}
      {bytes before left after : List UInt8} {is : List Instr} (hE : E.constants = constants)
      (h : StandsIn E Γ e bytes is before left after) : Emitted e constants bytes
  | nested {g : ObjectFunction} {constants : List (Constant ObjectFunction)} {bytes : List UInt8}
      (hmem : Constant.function g ∈ constants) (h : Emitted e g.constants g.code) :
      Emitted e constants bytes

/-- The codes of some expressions are all in a function. -/
def AllEmitted (constants : List (Constant ObjectFunction)) (es : List Expr) (is : List Instr) :
    Prop :=
  ∀ e ∈ es, Emitted e constants (encodeAll is)

namespace Emitted

variable {e : Expr} {constants : List (Constant ObjectFunction)} {bytes left : List UInt8}

theorem around (h : Emitted e constants bytes) (pre post : List UInt8) :
    Emitted e constants (pre ++ (bytes ++ post)) := by
  cases h with
  | code hE h =>
      rename_i E Γ before left after is
      have h' : StandsIn E Γ e (pre ++ (bytes ++ post)) is (pre ++ before) left (after ++ post) := by
        refine ⟨h.code, ?_, h.left⟩
        rw [h.bytes]
        simp only [List.append_assoc]
      exact .code hE h'
  | nested hmem h => exact .nested hmem h

/-- Code in the operand of a unary minus. -/
theorem leftAs (h : Emitted e constants bytes) (hleft : LeftAs bytes left) :
    Emitted e constants left := by
  cases h with
  | code hE h =>
      obtain ⟨hcode, rfl, hleftₑ⟩ := h
      obtain ⟨before', rest', -, hrest, rfl⟩ := hleft.append
      obtain ⟨leftₑ', after', hleftₑ', -, rfl⟩ := hrest.append
      exact .code hE ⟨hcode, rfl, hleftₑ.trans hleftₑ'⟩
  | nested hmem h => exact .nested hmem h

/-- An expression whose code is in a function has it in a function of the program. -/
theorem functionOf {f g : ObjectFunction} (h : Emitted e constants bytes)
    (hg : FunctionOf f g) (hconstants : g.constants = constants) (hbytes : g.code = bytes) :
    ∃ h E Γ is before left after, FunctionOf f h ∧ E.constants = h.constants ∧
      StandsIn E Γ e h.code is before left after := by
  induction h generalizing g with
  | code hE h =>
      subst hconstants hbytes
      exact ⟨g, _, _, _, _, _, _, hg, hE, h⟩
  | nested hmem _ ih =>
      subst hconstants
      exact ih (.nested hg hmem) rfl rfl

end Emitted

namespace AllEmitted

variable {constants : List (Constant ObjectFunction)} {es es' : List Expr} {is js : List Instr}

theorem nil (is : List Instr) : AllEmitted constants [] is := nofun

theorem right (h : AllEmitted constants es is) (js : List Instr) :
    AllEmitted constants es (is ++ js) := by
  intro e he
  rw [encodeAll_append]
  exact (h e he).around [] (encodeAll js)

theorem left (h : AllEmitted constants es js) (is : List Instr) :
    AllEmitted constants es (is ++ js) := by
  intro e he
  have hleft := (h e he).around (encodeAll is) []
  rwa [List.append_nil, ← encodeAll_append] at hleft

theorem append (h : AllEmitted constants es is) (h' : AllEmitted constants es' js) :
    AllEmitted constants (es ++ es') (is ++ js) := by
  intro e he
  rcases List.mem_append.mp he with hmem | hmem
  · exact h.right js e hmem
  · exact h'.left is e hmem

/-- An expression with the expressions in it. -/
theorem cons {E : Env} {Γ : List Slot} {e : Expr} (hcode : ExprCode E Γ e is)
    (h : AllEmitted E.constants es is) : AllEmitted E.constants (e :: es) is := by
  intro e' he'
  rcases List.mem_cons.mp he' with rfl | hmem
  · have hself : StandsIn E Γ e' (encodeAll is) is [] (encodeAll is) [] :=
      ⟨hcode, (List.append_nil _).symm, .refl _⟩
    exact .code rfl hself
  · exact h e' hmem

end AllEmitted

section

variable {E : Env} {Γ : List Slot}

mutual

/-- The code of an expression contains that of every expression in it. -/
theorem exprCode_subterms : ∀ (e : Expr) {is : List Instr}, ExprCode E Γ e is →
    AllEmitted E.constants e.subterms is
  | .nil, is, h => .cons h (.nil _)
  | .boolean b, is, h => .cons h (.nil _)
  | .integer v, is, h => .cons h (.nil _)
  | .real v, is, h => .cons h (.nil _)
  | .string v, is, h => .cons h (.nil _)
  | .variable x, is, h => .cons h (.nil _)
  | .super x, is, h => .cons h (.nil _)
  | .assign x e, is, h => by
      have hcode := h
      obtain ⟨ref, ie, -, he, rfl⟩ := h
      exact .cons hcode ((exprCode_subterms e he).right _)
  | .not e, is, h => by
      have hcode := h
      obtain ⟨ie, he, rfl⟩ := h
      exact .cons hcode ((exprCode_subterms e he).right _)
  | .negate e, is, h => by
      have hcode := h
      obtain ⟨ie, he, hnegation⟩ := exprCode_negate_iff.mp h
      refine .cons hcode fun e' he' => ?_
      unfold NegationCode at hnegation
      split at hnegation
      · rename_i hlast
        exact (exprCode_subterms e he e' he').leftAs (.inr ⟨hlast, hnegation⟩)
      · subst hnegation
        exact (exprCode_subterms e he).right _ e' he'
  | .binary op l r, is, h => by
      have hcode := h
      obtain ⟨il, ir, hl, hr, rfl⟩ := h
      exact .cons hcode (((exprCode_subterms l hl).append (exprCode_subterms r hr)).right _)
  | .and l r, is, h => by
      have hcode := h
      obtain ⟨il, ir, hl, hr, -, rfl⟩ := h
      exact .cons hcode (((exprCode_subterms l hl).right _).append (exprCode_subterms r hr))
  | .or l r, is, h => by
      have hcode := h
      obtain ⟨il, ir, hl, hr, -, rfl⟩ := h
      exact .cons hcode (((exprCode_subterms l hl).right _).append (exprCode_subterms r hr))
  | .conditional c t e, is, h => by
      have hcode := h
      obtain ⟨ic, it, ie, hc, ht, he, rfl⟩ := h
      exact .cons hcode (((exprCode_subterms c hc).append (exprCode_subterms t ht)).append
        (exprCode_subterms e he))
  | .call callee args, is, h => by
      have hcode := h
      obtain ⟨ic, ia, hc, ha, -, rfl⟩ := h
      exact .cons hcode (((exprCode_subterms callee hc).append (exprsCode_subterms args ha)).right _)
  | .invoke object x args, is, h => by
      have hcode := h
      obtain ⟨io, ia, k, ho, ha, -, -, -, rfl⟩ := h
      exact .cons hcode (((exprCode_subterms object ho).append (exprsCode_subterms args ha)).right _)
  | .property object x, is, h => by
      have hcode := h
      obtain ⟨io, k, ho, -, -, rfl⟩ := h
      exact .cons hcode ((exprCode_subterms object ho).right _)
  | .propertySafe object x, is, h => by
      have hcode := h
      obtain ⟨io, k, ho, -, -, rfl⟩ := h
      exact .cons hcode ((exprCode_subterms object ho).right _)
  | .setProperty object x e, is, h => by
      have hcode := h
      obtain ⟨io, ie, k, ho, he, -, -, rfl⟩ := h
      exact .cons hcode (((exprCode_subterms object ho).append (exprCode_subterms e he)).right _)
  | .index object key, is, h => by
      have hcode := h
      obtain ⟨io, ik, ho, hk, rfl⟩ := h
      exact .cons hcode (((exprCode_subterms object ho).append (exprCode_subterms key hk)).right _)
  | .setIndex object key e, is, h => by
      have hcode := h
      obtain ⟨io, ik, ie, ho, hk, he, rfl⟩ := h
      exact .cons hcode ((((exprCode_subterms object ho).append (exprCode_subterms key hk)).append
        (exprCode_subterms e he)).right _)
  | .list es, is, h => .cons h (elementsCode_subterms es 0 h)
  | .map es, is, h => .cons h (entriesCode_subterms es 0 h)
  | .superInvoke x args, is, h => by
      have hcode := h
      obtain ⟨this, super, ia, k, -, -, ha, -, -, -, rfl⟩ := h
      exact .cons hcode (((exprsCode_subterms args ha).left _).right _)

theorem exprsCode_subterms : ∀ (es : Exprs) {is : List Instr}, ExprsCode E Γ es is →
    AllEmitted E.constants es.subterms is
  | .nil, is, _ => .nil is
  | .cons e es, is, h => by
      obtain ⟨ie, ies, he, hes, rfl⟩ := h
      exact (exprCode_subterms e he).append (exprsCode_subterms es hes)

theorem elementsCode_subterms : ∀ (es : Exprs) (n : Nat) {is : List Instr},
    ElementsCode E Γ es n is → AllEmitted E.constants es.subterms is
  | .nil, _, is, _ => .nil is
  | .cons e es, n, is, h => by
      obtain ⟨ie, ies, he, hes, rfl⟩ := h
      exact ((exprCode_subterms e he).right _).append (elementsCode_subterms es (n + 1) hes)

theorem entriesCode_subterms : ∀ (es : Entries) (n : Nat) {is : List Instr},
    EntriesCode E Γ es n is → AllEmitted E.constants es.subterms is
  | .nil, _, is, _ => .nil is
  | .cons key value es, n, is, h => by
      obtain ⟨ik, iv, ies, hk, hv, hes, rfl⟩ := h
      exact (((exprCode_subterms key hk).append (exprCode_subterms value hv)).right _).append
        (entriesCode_subterms es (n + 1) hes)

end

end

/-! ### Statements -/

/-- The expressions in a function are in it, wherever it is a constant. -/
theorem FunctionCode.allEmitted {bodyCode : Place → List Slot → List Instr → List Slot → Prop}
    {E : Env} {Γ : List Slot} {type : FunctionType} {x : Bytes} {params : List Bytes}
    {f : ObjectFunction} {U : List Upvalue} {k : Nat} {es : List Expr}
    (h : FunctionCode bodyCode E Γ type x params f U) (hk : E.constants[k]? = some (.function f))
    (hbody : ∀ {P : Place} {Γ Γ' : List Slot} {is : List Instr}, bodyCode P Γ is Γ' →
      AllEmitted P.env.constants es is) (js : List Instr) : AllEmitted E.constants es js := by
  obtain ⟨-, -, -, -, zero, slots, is, Γ', -, -, his, hcode⟩ := h
  intro e he
  refine .nested (List.mem_of_getElem? hk) ?_
  rw [hcode]
  exact (hbody his).right _ e he

theorem forHead_exprs {E : Env} {Γ : List Slot} {c i : Option Expr} {n start : Nat}
    {head : List Instr} (h : ForHead E Γ c i n head start) :
    AllEmitted E.constants (subtermsOf c ++ subtermsOf i) head := by
  obtain ⟨ic, ii, hc, hi, rfl⟩ := h
  refine AllEmitted.append ?_ ?_
  · cases c with
    | none => exact .nil _
    | some c =>
        obtain ⟨is, hcode, -, rfl⟩ := hc
        exact (exprCode_subterms c hcode).right _
  · cases i with
    | none => exact .nil _
    | some e =>
        obtain ⟨is, hcode, -, -, rfl, -⟩ := hi
        exact ((exprCode_subterms e hcode).left _).right _

mutual

/-- The code of a statement contains that of every expression in it, or a constant of it does. -/
theorem stmtCode_exprs : ∀ (stmt : Stmt) {P : Place} {Γ Γ' : List Slot} {is : List Instr},
    StmtCode stmt P Γ is Γ' → AllEmitted P.env.constants stmt.exprs is
  | .empty, P, Γ, Γ', is, _ => .nil is
  | .expression e, P, Γ, Γ', is, h => by
      obtain ⟨ie, he, rfl, -⟩ := h
      exact (exprCode_subterms e he).right _
  | .print e, P, Γ, Γ', is, h => by
      obtain ⟨ie, he, rfl, -⟩ := h
      exact (exprCode_subterms e he).right _
  | .var x none, P, Γ, Γ', is, _ => .nil is
  | .var x (some e), P, Γ, Γ', is, h => by
      obtain ⟨ie, id, -, he, rfl⟩ := h
      exact (exprCode_subterms e he).right _
  | .const x e, P, Γ, Γ', is, h => by
      obtain ⟨ie, id, -, he, rfl⟩ := h
      exact (exprCode_subterms e he).right _
  | .function x params body, P, Γ, Γ', is, h => by
      obtain ⟨id, k, f, U, -, -, hk, hf, rfl⟩ := h
      exact hf.allEmitted hk (stmtsCode_exprs body) _
  | .class x none methods, P, Γ, Γ', is, h => by
      obtain ⟨id, k, ref, im, -, -, -, -, hm, rfl⟩ := h
      exact ((methodsCode_exprs methods hm).left _).right _
  | .class x (some y) methods, P, Γ, Γ', is, h => by
      obtain ⟨id, k, ref, ref', superRef, captured, im, -, -, -, -, -, -, hm, rfl⟩ := h
      exact (((methodsCode_exprs methods hm).left _).right _).right _
  | .block body, P, Γ, Γ', is, h => by
      obtain ⟨ib, Γb, hb, rfl, -⟩ := h
      exact (stmtsCode_exprs (P := P.nested) body hb).right _
  | .if c t, P, Γ, Γ', is, h => by
      obtain ⟨ic, it, hc, ht, -, rfl, -⟩ := h
      exact ((exprCode_subterms c hc).right _).append (stmtCode_exprs (P := P.after _) t ht)
  | .ifElse c t e, P, Γ, Γ', is, h => by
      obtain ⟨ic, it, ie, hc, ht, he, -, -, rfl, -⟩ := h
      exact ((((exprCode_subterms c hc).right _).append
        (stmtCode_exprs (P := P.after _) t ht)).right _).append (stmtCode_exprs (P := P.after _) e he)
  | .while c b, P, Γ, Γ', is, h => by
      obtain ⟨ic, ib, hc, hb, -, -, rfl, -⟩ := h
      exact (((exprCode_subterms c hc).right _).append
        (stmtCode_exprs (P := (P.nested.inLoop P.pos Γ.length).after _) b hb)).right _
  | .for init c i b, P, Γ, Γ', is, h => by
      obtain ⟨ii, Γi, head, start, ib, hi, hhead, hb, -, rfl, -⟩ := h
      exact ((((stmtCode_exprs (P := P.nested) init hi).append (forHead_exprs hhead)).append
        (stmtCode_exprs (P := (P.nested.inLoop _ _).after _) b hb)).right _).right _
  | .switch e cases, P, Γ, Γ', is, h => by
      obtain ⟨ie, ic, he, hc, rfl, -⟩ := h
      exact (exprCode_subterms e he).append (casesCode_exprs (P := P.after _) cases hc)
  | .continue, P, Γ, Γ', is, _ => .nil is
  | .return none, P, Γ, Γ', is, _ => .nil is
  | .return (some e), P, Γ, Γ', is, h => by
      obtain ⟨ie, he, rfl, -⟩ := h
      exact (exprCode_subterms e he).right _

theorem stmtsCode_exprs : ∀ (stmts : Stmts) {P : Place} {Γ Γ' : List Slot} {is : List Instr},
    StmtsCode stmts P Γ is Γ' → AllEmitted P.env.constants stmts.exprs is
  | .nil, P, Γ, Γ', is, _ => .nil is
  | .cons s ss, P, Γ, Γ', is, h => by
      obtain ⟨i, Γ₁, is', hs, hss, rfl⟩ := h
      exact (stmtCode_exprs s hs).append (stmtsCode_exprs (P := P.after _) ss hss)

theorem casesCode_exprs : ∀ (cases : Cases) {P : Place} {Γ : List Slot} {is : List Instr},
    CasesCode cases P Γ is → AllEmitted P.env.constants cases.exprs is
  | .nil, P, Γ, is, _ => .nil is
  | .default body, P, Γ, is, h => by
      obtain ⟨ib, Γb, captured, hb, rfl⟩ := h
      exact ((stmtsCode_exprs (P := P.nested) body hb).right _).right _
  | .case label body rest, P, Γ, is, h => by
      obtain ⟨il, ib, Γb, captured, ir, hl, hb, hr, -, -, rfl⟩ := h
      exact (((((exprCode_subterms label hl).left _).right _).append
        ((stmtsCode_exprs (P := P.nested.after _) body hb).right _)).right _).append
        (casesCode_exprs (P := P.after _) rest hr)

theorem methodsCode_exprs : ∀ (methods : Methods) {E : Env} {Γ : List Slot} {is : List Instr},
    MethodsCode methods E Γ is → AllEmitted E.constants methods.exprs is
  | .nil, E, Γ, is, _ => .nil is
  | .cons x params body rest, E, Γ, is, h => by
      obtain ⟨k, kx, f, U, ir, -, -, hk, -, hf, hr, rfl⟩ := h
      intro e he
      rcases List.mem_append.mp he with hmem | hmem
      · exact hf.allEmitted hk (stmtsCode_exprs body) _ e hmem
      · exact (methodsCode_exprs rest hr).left _ e hmem

end

/-! ### Accepted programs -/

/-- The code of `-e` does not end in `ONE`. -/
theorem NegationCode.getLast?_ne {is js : List Instr} (h : NegationCode is js) :
    (encodeAll js).getLast? ≠ some OpCode.one.toByte := by
  have hlast : ∃ bytes op, encodeAll js = bytes ++ [OpCode.toByte op] ∧ op ≠ OpCode.one := by
    unfold NegationCode at h
    split at h
    · exact ⟨_, _, h, by decide⟩
    · exact ⟨encodeAll is, .negate, by rw [h, encodeAll_append]; rfl, by decide⟩
  obtain ⟨bytes, op, hbytes, hop⟩ := hlast
  rw [hbytes, List.getLast?_concat]
  exact fun heq => hop (OpCode.toByte_injective (Option.some.inj heq))

namespace Compiler

variable (parseReal : ParseReal) {fuel : Nat} {source : Bytes} {context : Context} {addr : Addr}
  {f : ObjectFunction} {s : CompilerState}

/-- **The expressions of an accepted program.**  `compile_code` relates the functions of the program
to its tree from the outside in; here the code of each expression of the tree, those in its functions
and methods among them, is found in one of the functions that run. -/
theorem compile_expressions (h : compile parseReal fuel source context addr = .ok (some f, s)) :
    ∃ program, Syntax.parse parseReal fuel source = some program ∧ ∀ e ∈ program.exprs,
      ∃ g E Γ is before left after, FunctionOf f g ∧ E.constants = g.constants ∧
        StandsIn E Γ e g.code is before left after := by
  obtain ⟨program, hparse, -, -, -, zero, is, Γ', -, his, hcode⟩ := compile_code parseReal h
  refine ⟨program, hparse, fun e he => ?_⟩
  have hall := ((stmtsCode_exprs program his).right (returnCode .script)) e he
  exact hall.functionOf .script rfl hcode

variable (P : Platform)

/-- Each `-e` of an accepted program is sound if and only if the last byte of the code of `e` is not
`ONE`, or `e` ends in the literal 1. -/
theorem compile_negate (h : compile parseReal fuel source context addr = .ok (some f, s)) :
    ∃ program, Syntax.parse parseReal fuel source = some program ∧
      ∀ e, Expr.negate e ∈ program.exprs → ∃ g E Γ is js before after, FunctionOf f g ∧
        ExprCode E Γ e is ∧ g.code = before ++ (encodeAll js ++ after) ∧
        (NegationSound P is js ↔ ¬ LastByteOne is ∨ e.endsInOne = true) := by
  obtain ⟨program, hparse, hall⟩ := compile_expressions parseReal h
  refine ⟨program, hparse, fun e he => ?_⟩
  obtain ⟨g, E, Γ, js, before, left, after, hg, -, hcode, hbytes, hleft⟩ := hall _ he
  obtain ⟨is, his, hjs⟩ := exprCode_negate_iff.mp hcode
  have hsame := hleft.eq_of_getLast? hjs.getLast?_ne
  subst hsame
  exact ⟨g, E, Γ, is, js, before, after, hg, his, hbytes, fun h => h.endsInOne his,
    .of_endsInOne P his hjs⟩

/-- Each `c ? a : b` of an accepted program evaluates both branches in every run from its start to its
end. -/
theorem compile_conditional (h : compile parseReal fuel source context addr = .ok (some f, s)) :
    ∃ program, Syntax.parse parseReal fuel source = some program ∧
      ∀ c t e, Expr.conditional c t e ∈ program.exprs → ∃ g E Γ p ic it ie, FunctionOf f g ∧
        ExprCode E Γ c ic ∧ ExprCode E Γ t it ∧ ExprCode E Γ e ie ∧
        ∀ rest vm vm', AtOffset g rest p vm → StepsAbove P rest vm vm' →
          AtOffset g rest (p + codeSize (ic ++ it ++ ie)) vm' →
          (∃ mid, StepsAbove P rest vm mid ∧ AtOffset g rest (p + codeSize ic) mid ∧
            BothRun P g rest (p + codeSize ic) it ie mid vm') ∧
          ¬ Selects P g rest p ic it ie vm vm' := by
  obtain ⟨program, hparse, hall⟩ := compile_expressions parseReal h
  refine ⟨program, hparse, fun c t e he => ?_⟩
  obtain ⟨g, E, Γ, is, before, left, after, hg, -, hcode, hbytes, hleft⟩ := hall _ he
  have hne := exprCode_ne_nil _ hcode
  obtain ⟨ic, it, ie, hc, ht, he, rfl⟩ := hcode
  obtain ⟨last, rfl⟩ := hleft.exists_concat (encodeAll_ne_nil hne)
  rw [List.append_assoc] at hbytes
  exact ⟨g, E, Γ, before.length, ic, it, ie, hg, hc, ht, he, fun rest vm vm' hstart h hend =>
    conditional_run hc ht (exprCode_ne_nil e he) hbytes hstart h hend⟩

/-- A machine at an expression whose bytes are left as they are. -/
theorem ahead_of_standsIn {E : Env} {Γ : List Slot} {e : Expr} {g : ObjectFunction}
    {is : List Instr} {before left after : List UInt8} {rest : List CallFrame} {vm : VM}
    (h : StandsIn E Γ e g.code is before left after) (hleft : left = encodeAll is)
    (hat : AtOffset g rest before.length vm) : vm.Ahead (encodeAll is) := by
  obtain ⟨frame, hframes, rfl, hip⟩ := hat
  refine ⟨frame, rest, hframes, ?_⟩
  unfold VM.CodeAt
  rw [hip, h.bytes, List.drop_left, hleft]
  exact List.prefix_append _ _

/-- Each list literal of an accepted program whose last byte no unary minus changes makes the list of
the values of its elements. -/
theorem compile_list (h : compile parseReal fuel source context addr = .ok (some f, s)) :
    ∃ program, Syntax.parse parseReal fuel source = some program ∧
      ∀ es, Expr.list es ∈ program.exprs → ∃ g E Γ is before left after codes, FunctionOf f g ∧
        StandsIn E Γ (.list es) g.code is before left after ∧
        List.Forall₂ (ExprCode E Γ) es.toList codes ∧
        (left = encodeAll is → ∀ (R : Reserve) rest vm evals, AtOffset g rest before.length vm →
          R.base ≤ vm.stackTop → R.Valid vm → vm.stackTop < P.capacity →
          ElementsEvaluate P (fun as => VM.Tidy (R.with as)) codes 0 vm evals →
          ∃ vm', BuildsList P es is vm evals vm' ∧ VM.Tidy R vm vm') := by
  obtain ⟨program, hparse, hall⟩ := compile_expressions parseReal h
  refine ⟨program, hparse, fun es he => ?_⟩
  obtain ⟨g, E, Γ, is, before, left, after, hg, -, hstands⟩ := hall _ he
  obtain ⟨codes, hcodes, rfl⟩ := (elementsCode_iff es 0 is).mp hstands.code
  exact ⟨g, E, Γ, _, before, left, after, codes, hg, hstands, hcodes,
    fun hleft R rest vm evals hat hbase hvalid hroom heval =>
      heval.buildsList P hcodes.length_eq hbase hvalid hroom (ahead_of_standsIn hstands hleft hat)⟩

/-- Each map literal of an accepted program whose last byte no unary minus changes makes the map of
storing its pairs in their order, exactly when its first pairs do not store two values for a key. -/
theorem compile_map (h : compile parseReal fuel source context addr = .ok (some f, s)) :
    ∃ program, Syntax.parse parseReal fuel source = some program ∧
      ∀ entries, Expr.map entries ∈ program.exprs → ∃ g E Γ is before left after codes,
        FunctionOf f g ∧ StandsIn E Γ (.map entries) g.code is before left after ∧
        List.Forall₂ (EntryCode E Γ) entries.toList codes ∧
        (left = encodeAll is → ∀ [HashKey Value] [LawfulHashKey Value] (R : Reserve) rest vm pairs,
          AtOffset g rest before.length vm → R.base ≤ vm.stackTop → R.Valid vm →
          vm.stackTop < P.capacity →
          EntriesEvaluate P (fun as => VM.Tidy (R.with as)) codes [] vm pairs →
          StringsApart (pairValues pairs) →
          ∃ vm' table, BuildsMap P entries is vm pairs vm' table ∧ VM.Tidy R vm vm' ∧
            (HashMap.Refines table (HashMap.FiniteMap.assignAll ∅ pairs) ↔ FirstIsLast pairs)) := by
  obtain ⟨program, hparse, hall⟩ := compile_expressions parseReal h
  refine ⟨program, hparse, fun entries he => ?_⟩
  obtain ⟨g, E, Γ, is, before, left, after, hg, -, hstands⟩ := hall _ he
  obtain ⟨codes, hcodes, rfl⟩ := (entriesCode_iff entries 0 is).mp hstands.code
  exact ⟨g, E, Γ, _, before, left, after, codes, hg, hstands, hcodes,
    fun hleft => fun R rest vm pairs hat hbase hvalid hroom heval _ =>
      heval.buildsMap P hcodes.length_eq hbase hvalid hroom (ahead_of_standsIn hstands hleft hat)⟩

end Compiler

end CppLox
