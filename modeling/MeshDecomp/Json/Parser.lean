import MeshDecomp.Json.Token

/-!
Documents from tokens. The lists and objects that are still open lie on a stack, so that a document
may be nested to any depth.
-/

namespace MeshDecomp.Json

/-- A list or an object that is still open, its last item first. -/
inductive Frame where
  | list (done : List Json)
  | object (done : List (Option String × Json)) (name : Option String)

/-- What may come next. -/
inductive Expected where
  | value
  | valueOrEnd
  | nameOrEnd
  | name
  | colon
  | commaOrEnd
  | nothing (document : Json)

structure Parsing where
  stack : List Frame
  expected : Expected

namespace Parsing

/-- Puts a finished value where it belongs. -/
def put (v : Json) : List Frame → Parsing
  | [] => ⟨[], .nothing v⟩
  | .list done :: r => ⟨.list (v :: done) :: r, .commaOrEnd⟩
  | .object done name :: r => ⟨.object ((name, v) :: done) name :: r, .commaOrEnd⟩

def begin (stack : List Frame) : Token → Option Parsing
  | .openList => some ⟨.list [] :: stack, .valueOrEnd⟩
  | .openObject => some ⟨.object [] none :: stack, .nameOrEnd⟩
  | .value v => some (put v stack)
  | _ => none

def step (p : Parsing) (t : Token) : Option Parsing :=
  match p.expected, t, p.stack with
  | .valueOrEnd, .closeList, .list done :: r => some (put (.list done.reverse) r)
  | .value, t, stack => begin stack t
  | .valueOrEnd, t, stack => begin stack t
  | .nameOrEnd, .closeObject, .object done _ :: r => some (put (.object done.reverse) r)
  | .nameOrEnd, .value (.text name), .object done _ :: r => some ⟨.object done name :: r, .colon⟩
  | .name, .value (.text name), .object done _ :: r => some ⟨.object done name :: r, .colon⟩
  | .colon, .colon, stack => some ⟨stack, .value⟩
  | .commaOrEnd, .comma, .list done :: r => some ⟨.list done :: r, .value⟩
  | .commaOrEnd, .comma, .object done name :: r => some ⟨.object done name :: r, .name⟩
  | .commaOrEnd, .closeList, .list done :: r => some (put (.list done.reverse) r)
  | .commaOrEnd, .closeObject, .object done _ :: r => some (put (.object done.reverse) r)
  | _, _, _ => none

end Parsing

/-- The document that a text holds, with nothing but blanks around it. -/
def parse? (text : String) : Option Json := do
  let tokens ← Token.scanAll text.toList
  let p ← tokens.foldlM Parsing.step ⟨[], .value⟩
  match p.expected with
  | .nothing document => some document
  | _ => none

end MeshDecomp.Json
