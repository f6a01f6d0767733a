import Flowgraph.Scoping.Analyze

/-! # Members as words

What a member says about names in the order in which it is read: functions and scopes begin and end,
names are declared and mentioned. The analysis of a member is the run of a machine over this word.
-/

namespace Flowgraph.Scoping

/-- A construct that needs helper variables. -/
inductive Help
  | switch
  | attempt
  | handler
  | iterator
  | giveBack

inductive Move
  /-- A member begins. -/
  | begin (node : Option Nat) (kind : ScopeKind) (scopeNode : Nat) (place : Position) (name : String)
  /-- A nested function begins. -/
  | nest (f : Tree.Function) (name : String)
  /-- The innermost function ends. -/
  | finish
  /-- A scope of the function begins. -/
  | enter (kind : ScopeKind) (node : Nat) (place : Position)
  | exit
  | declare (d : Tree.Declaration)
  | parameter (d : Tree.Declaration)
  | receiver
  | mention (place : Position) (var : Tree.Ref)
  | this (place : Position)
  /-- A construct that is counted begins or ends. -/
  | count (change : Depths → Depths)
  | help (h : Help)
  | request (optional : List Tree.Declaration)

/-! ## Words of trees -/

def deeper : Move := .count fun d => { d with loop := d.loop + 1 }

def shallower : Move := .count fun d => { d with loop := d.loop - 1 }

mutual

def exprMoves : Tree.Expr → List Move
  | .get place var => [.mention place var]
  | .set place var value => exprMoves value ++ [.mention place var]
  | .this place => [.this place]
  | .function _ f => functionMoves "" f
  | .letIn _ d@⟨_, _, _, initializer, _, _⟩ body =>
    optionMoves initializer ++ (.declare d :: exprMoves body)
  | .staticSet _ _ value | .throw _ value => exprMoves value
  | .propertyGet _ receiver _ | .directGet _ receiver _ => exprMoves receiver
  | .propertySet _ receiver _ value | .directSet _ receiver _ value =>
    exprMoves receiver ++ exprMoves value
  | .staticCall _ _ args _ | .construct _ _ args _ => argumentMoves args
  | .methodCall _ receiver _ args => exprMoves receiver ++ argumentMoves args
  | .isType _ operand _ | .asType _ operand _ | .not _ operand => exprMoves operand
  | .conditional _ condition yes no => exprMoves condition ++ (exprMoves yes ++ exprMoves no)
  | .logical _ _ left right => exprMoves left ++ exprMoves right
  | .concat _ parts => exprsMoves parts
  | .list _ elements _ => exprsMoves elements
  | .map _ entries _ => entryMoves entries
  | _ => []

def exprsMoves : List Tree.Expr → List Move
  | [] => []
  | e :: rest => exprMoves e ++ exprsMoves rest

def optionMoves : Option Tree.Expr → List Move
  | none => []
  | some e => exprMoves e

def entryMoves : List Tree.MapEntry → List Move
  | [] => []
  | ⟨key, value⟩ :: rest => exprMoves key ++ (exprMoves value ++ entryMoves rest)

def namedMoves : List Tree.NamedArgument → List Move
  | [] => []
  | ⟨_, value⟩ :: rest => exprMoves value ++ namedMoves rest

def argumentMoves : Tree.Arguments → List Move
  | ⟨positional, named⟩ => exprsMoves positional ++ namedMoves named

def parameterMoves : List Tree.Declaration → List Move
  | [] => []
  | d@⟨_, _, _, initializer, _, _⟩ :: rest =>
    optionMoves initializer ++ (.parameter d :: parameterMoves rest)

def declarationMoves : List Tree.Declaration → List Move
  | [] => []
  | d@⟨_, _, _, initializer, _, _⟩ :: rest =>
    optionMoves initializer ++ (.declare d :: declarationMoves rest)

def functionMoves (name : String) : Tree.Function → List Move
  | f@⟨_, _, positional, required, named, body⟩ =>
    .nest f name :: (parameterMoves positional ++ (parameterMoves named ++
      (.request (positional.drop required ++ named) :: bodyMoves body)) ++ [.finish])

def bodyMoves : Option Tree.Stmt → List Move
  | none => []
  | some s => stmtMoves s

def stmtMoves : Tree.Stmt → List Move
  | .block id place statements => .enter .block id place :: (stmtsMoves statements ++ [.exit])
  | .expr _ value | .yield _ value => exprMoves value
  | .declare d@⟨_, _, _, initializer, _, _⟩ => optionMoves initializer ++ [.declare d]
  | .function _ d f => .declare d :: functionMoves d.name f
  | .branch _ condition yes no => exprMoves condition ++ (stmtMoves yes ++ bodyMoves no)
  | .whileDo _ condition body =>
    deeper :: (exprMoves condition ++ stmtMoves body ++ [shallower])
  | .doWhile _ body condition =>
    deeper :: (stmtMoves body ++ exprMoves condition ++ [shallower])
  | .forLoop id place vars condition updates body =>
    .enter .forLoop id place :: (declarationMoves vars ++
      (deeper :: (optionMoves condition ++ (exprsMoves updates ++ stmtMoves body) ++ [shallower])) ++
        [.exit])
  | .forIn id place d iterable body =>
    exprMoves iterable ++ (.help .iterator ::
      .count (fun k => { k with forIn := k.forIn + 1 }) ::
        ((deeper :: ((.enter .forIn id place :: ((.declare d :: stmtMoves body) ++ [.exit])) ++
          [shallower])) ++ [.count fun k => { k with forIn := k.forIn - 1 }]))
  | .labeled _ _ _ body => stmtMoves body
  | .switch _ subject cases =>
    exprMoves subject ++ (.help .switch :: .count (fun k => { k with switch := k.switch + 1 }) ::
      (caseMoves cases ++ [.count fun k => { k with switch := k.switch - 1 }]))
  | .giveBack _ value => optionMoves value ++ [.help .giveBack]
  | .tryCatch _ body catches =>
    .help .attempt :: .count (fun k => { k with attempt := k.attempt + 1 }) ::
      (stmtMoves body ++
        (.count (fun k => { k with attempt := k.attempt - 1, handler := k.handler + 1 }) ::
          .help .handler ::
            (catchMoves catches ++ [.count fun k => { k with handler := k.handler - 1 }])))
  | .tryFinally _ body finalizer =>
    .help .attempt ::
      .count (fun k => { k with attempt := k.attempt + 1, finalizer := k.finalizer + 1 }) ::
        (stmtMoves body ++
          (.count (fun k => { k with attempt := k.attempt - 1, finalizer := k.finalizer - 1,
                                     handler := k.handler + 1 }) ::
            .help .handler ::
              (stmtMoves finalizer ++ [.count fun k => { k with handler := k.handler - 1 }])))
  | .assert _ condition message => exprMoves condition ++ optionMoves message
  | _ => []

def stmtsMoves : List Tree.Stmt → List Move
  | [] => []
  | s :: rest => stmtMoves s ++ stmtsMoves rest

def caseMoves : List Tree.SwitchCase → List Move
  | [] => []
  | ⟨_, _, _, tests, _, body⟩ :: rest => exprsMoves tests ++ (stmtMoves body ++ caseMoves rest)

def catchMoves : List Tree.CatchClause → List Move
  | [] => []
  | ⟨id, place, _, exception, stackTrace, body⟩ :: rest =>
    (.enter .handler id place :: (exception.toList.map .declare ++
      (stackTrace.toList.map .declare ++ stmtMoves body) ++ [.exit])) ++ catchMoves rest

end

def signatureMoves (f : Tree.Function) : List Move :=
  parameterMoves f.positional ++ (parameterMoves f.named ++ [.request f.optional])

def initializerMoves : Tree.Initializer → List Move
  | .field _ _ value => exprMoves value
  | .superCall _ _ args | .redirect _ _ args => argumentMoves args

def initializersMoves (owner : Tree.ClassDecl) (c : Tree.Constructor) : List Move :=
  (if !c.isRedirecting then
    owner.fields.flatMap fun f => if f.isStatic then [] else optionMoves f.initializer
  else []) ++ c.initializers.flatMap initializerMoves

/-- Is the member called with a receiver? -/
def hasReceiver : Tree.Member → Bool
  | .procedure owner p => owner.isSome && !p.isStatic && p.kind ≠ .factory
  | .constructor .. => true
  | .field owner f => owner.isSome && !f.isStatic

def receiverMoves (m : Tree.Member) : List Move := if hasReceiver m then [.receiver] else []

/-- What stands inside the function of a member. A procedure without a function has nothing. -/
def insideMoves : Tree.Member → List Move
  | .procedure _ p => match p.function with
    | none => []
    | some f => signatureMoves f ++ bodyMoves f.body
  | .constructor owner c =>
    signatureMoves c.function ++ (initializersMoves owner c ++ bodyMoves c.function.body)
  | .field _ f => optionMoves f.initializer

def beginMove : Tree.Member → Move
  | .procedure _ p => match p.function with
    | none => .begin none .function 0 .unknown p.name
    | some f => .begin (some f.id) .function f.id f.place p.name
  | .constructor _ c => .begin (some c.function.id) .function c.function.id c.function.place c.name
  | .field _ f => .begin none .field f.id f.place f.name

/-- The word of a member. -/
def memberMoves (m : Tree.Member) : List Move :=
  beginMove m :: (receiverMoves m ++ insideMoves m ++ [.finish])

end Flowgraph.Scoping
