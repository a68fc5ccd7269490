import TierCache.Json.Token

/-!
# Reading JSON documents

A tree is a document as it is read. Its strings need not be texts and its numbers need not be
integers: what a reader ignores only has to be well formed. The reader takes one token at a time
and keeps the open lists and records on a stack, so that no nesting is too deep for it.
-/
namespace TierCache.Json

inductive Tree where
  | null
  | truth (b : Bool)
  | number (n : Option Int)
  | text (s : Option String)
  | list (items : List Tree)
  | record (fields : List (Option String × Tree))

/-- A list or record with the elements read so far, last one first. -/
inductive Frame where
  | list (done : List Tree)
  | record (done : List (Option String × Tree)) (key : Option String)

/-- What may come next, inside the frames of a stack. -/
inductive Reading where
  | value (stack : List Frame)
  | item (stack : List Frame)
  | key (done : List (Option String × Tree)) (stack : List Frame)
  | field (stack : List Frame)
  | colon (done : List (Option String × Tree)) (key : Option String) (stack : List Frame)
  | complete (t : Tree) (stack : List Frame)

namespace Reading

def begin (stack : List Frame) : Token → Option Reading
  | .openList => some (.item stack)
  | .openRecord => some (.field stack)
  | .null => some (.complete .null stack)
  | .truth b => some (.complete (.truth b) stack)
  | .number n => some (.complete (.number n) stack)
  | .text s => some (.complete (.text s) stack)
  | _ => none

def step : Reading → Token → Option Reading
  | .value stack, t => begin stack t
  | .item stack, .closeList => some (.complete (.list []) stack)
  | .item stack, t => begin (.list [] :: stack) t
  | .key done stack, .text k => some (.colon done k stack)
  | .field stack, .closeRecord => some (.complete (.record []) stack)
  | .field stack, .text k => some (.colon [] k stack)
  | .colon done k stack, .colon => some (.value (.record done k :: stack))
  | .complete j (.list done :: stack), .comma => some (.value (.list (j :: done) :: stack))
  | .complete j (.list done :: stack), .closeList =>
    some (.complete (.list (j :: done).reverse) stack)
  | .complete j (.record done k :: stack), .comma => some (.key ((k, j) :: done) stack)
  | .complete j (.record done k :: stack), .closeRecord =>
    some (.complete (.record ((k, j) :: done).reverse) stack)
  | _, _ => none

end Reading

namespace Tree

def ofTokens? (ts : List Token) : Option Tree :=
  match ts.foldlM Reading.step (.value []) with
  | some (.complete t []) => some t
  | _ => none

def ofBytes? (bytes : List UInt8) : Option Tree := (lex bytes).bind ofTokens?

def text? : Tree → Option String
  | .text s => s
  | _ => none

def truth? : Tree → Option Bool
  | .truth b => some b
  | _ => none

/-- An integer between the bounds, both included. -/
def integer? (low high : Int) : Tree → Option Int
  | .number n => n.filter fun n => low ≤ n && n ≤ high
  | _ => none

def natural? (bound : Nat) (t : Tree) : Option Nat :=
  (t.integer? 0 (bound - 1)).map Int.toNat

def items? : Tree → Option (List Tree)
  | .list items => some items
  | _ => none

/-- The fields with their names, if every name is a text. -/
def fields? : Tree → Option (List (String × Tree))
  | .record fields => fields.mapM fun f => f.1.map (·, f.2)
  | _ => none

/-- The only field of a name, if there is one; two are refused. -/
def single? (fields : List (String × Tree)) (name : String) : Option (Option Tree) :=
  match fields.filter (·.1 = name) with
  | [] => some none
  | [f] => some (some f.2)
  | _ => none

/-- The fields of the given names. A record may hold others too; a list gives the fields by
position and may end early. -/
def select? (names : List String) : Tree → Option (List (Option Tree))
  | .list items =>
    if items.length ≤ names.length then
      some (items.map some ++ List.replicate (names.length - items.length) none)
    else none
  | .record fields => do
    let fields ← (Tree.record fields).fields?
    names.mapM (single? fields)
  | _ => none

end Tree

end TierCache.Json
