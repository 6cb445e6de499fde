/-
Scopes: which lambda parameters an expression may read, and what they stand for.

Each lambda over a stored collection opens a frame with its parameters. Only the
parameters of the innermost frame may be read: `Scope.check` refuses an
expression that reads one of an enclosing frame. A lambda over a collection that
is known beforehand opens no frame; its parameters join the innermost one.
-/
import DocQuery.Error
import DocQuery.Expr.Literal

namespace DocQuery

/-- What a parameter stands for. -/
inductive Binding where
  /-- Fields below a path from the root, or from the matched array item. -/
  | path (base : List String)
  /-- A named variable of an aggregation expression. -/
  | variable (name : String)
  /-- An aggregation expression. -/
  | computed (value : Value)
  /-- A group of documents with its key. -/
  | group
  /-- An item of a collection known beforehand. -/
  | known

namespace Binding

def root : Binding := .path []

end Binding

/-- Parameters of one lambda, the latest first. -/
structure Frame where
  bindings : List (String × Binding)
  /-- The frame is the condition on one array item. -/
  elemMatch : Bool := false

namespace Frame

def of (param : String) (b : Binding) : Frame := { bindings := [(param, b)] }

def bind (f : Frame) (param : String) (b : Binding) : Frame :=
  { f with bindings := (param, b) :: f.bindings }

def binding? (f : Frame) (param : String) : Option Binding :=
  (f.bindings.find? fun (name, _) => name = param).map Prod.snd

end Frame

/-- Who owns a parameter. -/
inductive Ownership where
  | own (b : Binding)
  | foreign
  | unbound

/-- Frames, the innermost first. -/
structure Scope where
  frames : List Frame := []

namespace Scope

def push (s : Scope) (f : Frame) : Scope := ⟨f :: s.frames⟩

/-- Scope of a lambda over whole documents. -/
def root (param : String) : Scope := push {} (.of param .root)

/-- Binds a parameter in the innermost frame. -/
def bindInner (s : Scope) (param : String) (b : Binding) : Scope :=
  match s.frames with
  | [] => ⟨[.of param b]⟩
  | f :: outer => ⟨f.bind param b :: outer⟩

def depth (s : Scope) : Nat := s.frames.length

/-- Whether the innermost frame is the condition on one array item. -/
def inElemMatch (s : Scope) : Bool := (s.frames.head?.map Frame.elemMatch).getD false

def classify (s : Scope) (param : String) : Ownership :=
  match s.frames with
  | [] => .unbound
  | inner :: outer =>
    match inner.binding? param with
    | some b => .own b
    | none => if outer.any fun f => (f.binding? param).isSome then .foreign else .unbound

def isForeign (s : Scope) (param : String) : Bool :=
  match s.classify param with
  | .foreign => true
  | _ => false

/-- What the parameter stands for that `node` reads. -/
def resolve (s : Scope) (param : String) (node : Expr) : Result Binding :=
  match s.classify param with
  | .own b => .ok b
  | .foreign => .error (.foreignParam node param)
  | .unbound => .error (.unboundParam node param)

/-- Scope of the body of a lambda over a stored collection. -/
def enter (s : Scope) (params : List Param) : Scope :=
  s.push { bindings := (params.map fun p => (p.name, Binding.root)).reverse }

/-- Scope of the body of a lambda over a collection known beforehand. -/
def join (s : Scope) (params : List Param) : Scope :=
  params.foldl (fun s p => s.bindInner p.name .known) s

end Scope

/-- Parameter at the root of a chain of members and positions. -/
def Expr.chainRoot? : Expr → Option String
  | .param p => some p.name
  | .member target _ => target.chainRoot?
  | .index target _ => target.chainRoot?
  | .convert operand _ => operand.chainRoot?
  | .quote inner => inner.chainRoot?
  | _ => none

namespace Scope

/-- Refuses a chain whose root is a parameter of an enclosing lambda. -/
def checkChain (s : Scope) (e : Expr) : Result Unit :=
  match e.chainRoot? with
  | some param => if s.isForeign param then .error (.foreignParam e param) else .ok ()
  | none => .ok ()

mutual
/-- Refuses an expression that reads a parameter of an enclosing lambda. -/
def check (s : Scope) : Expr → Result Unit
  | .literal _ => .ok ()
  | .param p => s.checkChain (.param p)
  | .inject _ => .ok ()
  | .member target name => do
    s.checkChain (.member target name)
    check s target
  | .index target position => do
    s.checkChain (.index target position)
    check s target
    check s position
  | .call target _ args => do
    check s target
    checkArgs s target.isKnown args
  | .staticCall owner method (source :: args) => do
    check s source
    if Expr.takesSource owner method then checkArgs s source.isKnown args else checkAll s args
  | .staticCall _ _ [] => .ok ()
  | .not operand => check s operand
  | .negate operand => check s operand
  | .convert operand type => do
    s.checkChain (.convert operand type)
    check s operand
  | .quote inner => do
    s.checkChain (.quote inner)
    check s inner
  | .binary _ left right => do
    check s left
    check s right
  | .conditional test ifTrue ifFalse => do
    check s test
    check s ifTrue
    check s ifFalse
  | .object _ members => checkMembers s members
  | .collection _ (some source) items => do
    check s source
    checkAll s items
  | .collection _ none items => checkAll s items
  | .lambda params body => check (s.enter params) body
  | .typeTest operand _ _ => check s operand
/-- Checks the arguments of a call. The body of a lambda among them is checked in a scope of its
own, or in the same scope if the receiver is known beforehand. -/
def checkArgs (s : Scope) (known : Bool) : List Expr → Result Unit
  | [] => .ok ()
  | arg :: rest => do
    match arg.asLambda? with
    | some (params, _) => checkBody (if known then s.join params else s.enter params) arg
    | none => check s arg
    checkArgs s known rest
/-- Checks the body of a lambda, quoted or not. -/
def checkBody (s : Scope) : Expr → Result Unit
  | .lambda _ body => check s body
  | .quote inner => checkBody s inner
  | _ => .ok ()
def checkAll (s : Scope) : List Expr → Result Unit
  | [] => .ok ()
  | e :: rest => do
    check s e
    checkAll s rest
def checkMembers (s : Scope) : List (String × Expr) → Result Unit
  | [] => .ok ()
  | (_, e) :: rest => do
    check s e
    checkMembers s rest
end

end Scope
end DocQuery
