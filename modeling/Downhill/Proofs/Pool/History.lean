import Downhill.Proofs.Pool.Differentiation

/-!
# Histories of pools

What may be asked of a pool, one constructor of `Call` for each request. One pool leads to another
by any sequence of calls, and a reached pool is one that the empty pool leads to; handles are those
that a pool gives out, so they do not count from the end. Every call lets the pool evolve
(`Call.evolves`), and so every reached pool has evolved from the empty one and is well formed.
-/

namespace Downhill

inductive Call (α : Type) where
  | constant (value : α)
  | var (index : Int)
  | unary (name : String) (a : Handle)
  | binary (name : String) (a b : Handle)
  /-- An elementary function of an operand. -/
  | apply (op : UnaryOp) (u : Operand α)
  /-- An infix operator between operands. -/
  | combine (op : BinaryOp) (u v : Operand α)
  | expression (u : Operand α)
  | vars (dim : Int)
  | differentiate (root : Handle) (index : Int)
  | gradient (root : Handle) (dim : Nat)
  | function (dim : Nat) (u : Operand α)
  | compiledGradient (dim : Nat) (u : Operand α)

namespace Call

variable {α : Type}

/-- What is asked of all handles in a call. -/
def All (P : Handle → Prop) : Call α → Prop
  | constant _ | var _ | vars _ => True
  | unary _ a | differentiate a _ | gradient a _ => P a
  | binary _ a b => P a ∧ P b
  | apply _ u | expression u | function _ u | compiledGradient _ u => u.All P
  | combine _ u v => u.All P ∧ v.All P

variable [Scalar α]

/-- The pool after a call. -/
def after (p : Pool α) : Call α → Pool α
  | constant v => ((Build.constant v).run p).2
  | var i => ((Build.var i).run p).2
  | unary name a => ((Build.unaryNamed name a).run p).2
  | binary name a b => ((Build.binaryNamed name a b).run p).2
  | apply op u => ((u.apply op).run p).2
  | combine op u v => ((u.combine op v).run p).2
  | expression u => ((Build.expression u).run p).2
  | vars dim => ((Build.vars dim).run p).2
  | differentiate h i => ((Build.differentiateBy h i).run p).2
  | gradient h dim => ((Build.gradient h dim).run p).2
  | function dim u => ((Build.function dim u).run p).2
  | compiledGradient dim u => ((Build.compiledGradient dim u).run p).2

variable {p : Pool α}

theorem evolves (hp : p.WF) (c : Call α) (hc : c.All (0 ≤ ·)) : p.Evolves (c.after p) := by
  cases c with
  | constant v => exact (Build.constant_ensures hp v).evolves
  | var i => exact (Build.var_ensures hp i).evolves
  | unary name a => exact (Build.unaryNamed_ensures hp name hc).evolves
  | binary name a b => exact (Build.binaryNamed_ensures hp name hc.1 hc.2).evolves
  | apply op u => exact (Build.apply_ensures hp op hc).evolves
  | combine op u v => exact (Build.operand_combine_ensures hp op hc.1 hc.2).evolves
  | expression u => exact (Build.expression_ensures hp hc).evolves
  | vars dim => exact (Build.vars_ensures hp dim).evolves
  | differentiate h i => exact (Build.differentiateBy_ensures hp hc i).evolves
  | gradient h dim => exact (Build.gradient_ensures hp hc dim).evolves
  | function dim u => exact (Build.function_ensures hp hc dim).evolves
  | compiledGradient dim u => exact (Build.compiledGradient_ensures hp hc dim).evolves

end Call

namespace Pool

variable {α : Type} [Scalar α]

/-- Any sequence of calls, whether they succeed or fail. -/
inductive Leads (p : Pool α) : Pool α → Prop where
  | rfl : Leads p p
  | call {q : Pool α} : Leads p q → (c : Call α) → c.All (0 ≤ ·) → Leads p (c.after q)

def Reached (p : Pool α) : Prop := Pool.empty.Leads p

variable {p q r : Pool α}

namespace Leads

theorem trans (H : p.Leads q) (H' : q.Leads r) : p.Leads r := by
  induction H' with
  | rfl => exact H
  | call _ c hc ih => exact ih.call c hc

theorem evolves (H : p.Leads q) (hp : p.WF) : p.Evolves q := by
  induction H with
  | rfl => exact .rfl
  | call _ c hc ih => exact ih.trans (c.evolves (ih.wf hp) hc)

theorem wf (H : p.Leads q) (hp : p.WF) : q.WF := (H.evolves hp).wf hp

theorem le (H : p.Leads q) (hp : p.WF) : p ≤ q := (H.evolves hp).le hp

end Leads

namespace Reached

theorem empty : (Pool.empty : Pool α).Reached := .rfl

theorem leads (H : p.Reached) (H' : p.Leads q) : q.Reached := Leads.trans H H'

theorem call (H : p.Reached) (c : Call α) (hc : c.All (0 ≤ ·)) : (c.after p).Reached :=
  Leads.call H c hc

theorem evolves (H : p.Reached) : Pool.empty.Evolves p := Leads.evolves H .empty

theorem wf (H : p.Reached) : p.WF := Leads.wf H .empty

/-- What derivatives inherit holds of all that are remembered. -/
theorem inherits {P : Pool α → Handle → Nat → Handle → Prop} (H : p.Reached) (K : Inherited P)
    (hd : p.derivative? h i = some d) : P p h i d :=
  K.evolves H.evolves .empty (fun he => nomatch derivative?_empty.symm.trans he) hd

end Reached

end Pool

end Downhill
