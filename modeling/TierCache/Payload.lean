import TierCache.Reader

/-!
# Payloads

The types that the bodies of a catalogue service decode to, and the parsers for them.
-/
namespace TierCache

structure Item where
  id : Nat
  name : String
  deriving DecidableEq, Repr

inductive Payload where
  | text (s : String)
  | integer (n : Int)
  | flag (b : Bool)
  | item (i : Item)
  | integers (ns : List Int)
  deriving DecidableEq, Repr

def Item.ofTree? (t : Json.Tree) : Option Item :=
  match t.select? ["id", "name"] with
  | some [some id, some name] => do
    let id ← id.natural? UInt32.size
    let name ← name.text?
    return { id, name }
  | _ => none

namespace Payload

def isText : Payload → Bool
  | .text _ => true
  | _ => false

def isInteger : Payload → Bool
  | .integer _ => true
  | _ => false

def isFlag : Payload → Bool
  | .flag _ => true
  | _ => false

def isItem : Payload → Bool
  | .item _ => true
  | _ => false

def isIntegers : Payload → Bool
  | .integers _ => true
  | _ => false

def textParser : Parser Payload := .ofReader .text .text isText fun _ => rfl

def integerParser : Parser Payload := .ofReader .integer .integer isInteger fun _ => rfl

def flagParser : Parser Payload := .ofReader .flag .flag isFlag fun _ => rfl

def itemParser : Parser Payload := .ofReader (.json id Item.ofTree?) .item isItem fun _ => rfl

/-- Some services put the guard `)]}'` in front of a document, to keep scripts from loading it. -/
def dropGuard : List Char → List Char
  | ')' :: ']' :: '\x7d' :: '\'' :: r => dropGuard r
  | cs => cs

def guardedItemParser : Parser Payload :=
  .ofReader (.json dropGuard Item.ofTree?) .item isItem fun _ => rfl

def integersOfTree? (t : Json.Tree) : Option (List Int) := do
  let items ← t.items?
  items.mapM (Json.Tree.integer? (-0x8000000000000000) 0x7FFFFFFFFFFFFFFF)

def integersParser : Parser Payload :=
  .ofReader (.json id integersOfTree?) .integers isIntegers fun _ => rfl

def quotedParser : Parser Payload := .ofReader (.json id Json.Tree.text?) .text isText fun _ => rfl

end Payload

/-- What a service says about a request it failed. -/
inductive ErrorPayload where
  | text (s : String)
  | api (message : String)
  deriving DecidableEq, Repr

namespace ErrorPayload

def messageOfTree? (t : Json.Tree) : Option String :=
  match t.select? ["message"] with
  | some [some message] => message.text?
  | _ => none

def textReader : Reader ErrorPayload := fun bytes => (Reader.text bytes).map .text

def apiReader : Reader ErrorPayload := fun bytes =>
  (Reader.json id messageOfTree? bytes).map .api

end ErrorPayload

end TierCache
