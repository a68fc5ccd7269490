import TierCache.Text.Blank
import TierCache.Text.Decimal

/-!
# Dates of mail and HTTP headers

Dates of the form `Tue, 1 Jul 2003 10:52:37 +0200`, as RFC 2822 has them, with its obsolete zones
and comments. The day of the week may be left out, but must not be wrong.
-/
namespace TierCache.MailDate

abbrev Text := List Char

/-- Days from the first of January 1970, in the proleptic Gregorian calendar. Years begin in
March here, so that the leap day comes last. -/
def daysFromEpoch (year month day : Nat) : Int :=
  let y : Int := if month ≤ 2 then year - 1 else year
  let m : Int := (month + 9) % 12
  365 * y + y.fdiv 4 - y.fdiv 100 + y.fdiv 400 + (153 * m + 2).fdiv 5 + day - 1 - 719468

/-- From Monday, which is zero. -/
def weekdayOf (days : Int) : Nat := ((days + 3).fmod 7).toNat

def isLeap (year : Nat) : Bool := year % 4 = 0 && (year % 100 ≠ 0 || year % 400 = 0)

def daysIn (year month : Nat) : Nat :=
  if month = 2 then if isLeap year then 29 else 28
  else if month = 4 || month = 6 || month = 9 || month = 11 then 30
  else 31

def position? (names : List Text) (word : Text) : Option Nat :=
  names.findIdx? (· = word.map Char.toLower)

def weekdays : List Text :=
  [['m', 'o', 'n'], ['t', 'u', 'e'], ['w', 'e', 'd'], ['t', 'h', 'u'], ['f', 'r', 'i'],
    ['s', 'a', 't'], ['s', 'u', 'n']]

def months : List Text :=
  [['j', 'a', 'n'], ['f', 'e', 'b'], ['m', 'a', 'r'], ['a', 'p', 'r'], ['m', 'a', 'y'],
    ['j', 'u', 'n'], ['j', 'u', 'l'], ['a', 'u', 'g'], ['s', 'e', 'p'], ['o', 'c', 't'],
    ['n', 'o', 'v'], ['d', 'e', 'c']]

/-- At least one blank, and all of them. -/
def blanks? : Text → Option Text
  | [] => none
  | c :: r => if isBlank c then some (trimLeft r) else none

/-- The last year of the calendar. A date and its instant both lie in the calendar. -/
def lastYear : Nat := 262142

/-- A number of at least `low` and at most `high` digits, none that is above all years. -/
def number? (low high : Nat) (cs : Text) : Option (Nat × Text) :=
  let ds := (cs.take high).takeWhile Char.isDigit
  if ds.length < low then none
  else (Decimal.below? (lastYear + 1) ds).map fun n => (n, cs.drop ds.length)

def exactly? (c : Char) : Text → Option Text
  | [] => none
  | d :: r => if d = c then some r else none

/-- The day of the week, if a date begins with one. -/
def weekday? (cs : Text) : Option (Option Nat × Text) :=
  match position? weekdays (cs.take 3) with
  | none => some (none, cs)
  | some d => (exactly? ',' (cs.drop 3)).map fun r => (some d, r)

/-- Years of two digits lie between 1950 and 2049, years of three digits after 1900. -/
def fullYear (year digits : Nat) : Nat :=
  if digits = 2 then if year < 50 then year + 2000 else year + 1900
  else if digits = 3 then year + 1900
  else year

/-- Hours east of Greenwich of a zone that is named by letters. -/
def namedZone? (word : Text) : Option Int :=
  match String.ofList (word.map Char.toLower) with
  | "gmt" | "ut" | "z" => some 0
  | "edt" => some (-4)
  | "est" | "cdt" => some (-5)
  | "cst" | "mdt" => some (-6)
  | "mst" | "pdt" => some (-7)
  | "pst" => some (-8)
  | _ =>
    match word with
    | [c] => if c.toLower = 'j' then none else some 0
    | _ => none

/-- Seconds east of Greenwich. -/
def zone? (cs : Text) : Option (Int × Text) :=
  let word := cs.takeWhile Char.isAlpha
  if word ≠ [] then
    (namedZone? word).map fun hours => (hours * 3600, cs.drop word.length)
  else do
    let (sign, r) ← match cs with
      | '+' :: r => some ((1 : Int), r)
      | '-' :: r => some (-1, r)
      | _ => none
    let (hours, r) ← number? 2 2 r
    let (minutes, r) ← number? 2 2 r
    if 60 ≤ minutes then none
    else return (sign * (hours * 3600 + minutes * 60 : Nat), r)

/-- The text after a comment, inside `depth` brackets. A backslash takes the meaning from the
character after it. -/
def afterComment : Nat → Text → Option Text
  | _, [] => none
  | _, ['\\'] => none
  | depth, '\\' :: _ :: r => afterComment depth r
  | depth, '(' :: r => afterComment (depth + 1) r
  | depth + 2, ')' :: r => afterComment (depth + 1) r
  | 1, ')' :: r => some r
  | depth, _ :: r => afterComment depth r

/-- Nothing may follow a date but comments, each with blanks before it. -/
def onlyComments : Nat → Text → Bool
  | 0, cs => cs.isEmpty
  | n + 1, cs =>
    match trimLeft cs with
    | '(' :: r =>
      match afterComment 1 r with
      | some rest => onlyComments n rest
      | none => false
    | _ => cs.isEmpty

/-- Milliseconds from the first of January 1970. The leap second 60 counts as a whole second after
second 59. -/
def millis? (cs : Text) : Option Int := do
  let (weekday, r) ← weekday? (trimLeft cs)
  let (day, r) ← number? 1 2 (trimLeft r)
  let r ← blanks? r
  let month ← position? months (r.take 3)
  let r ← blanks? (r.drop 3)
  let (year, rest) ← number? 2 r.length r
  let year := fullYear year (r.length - rest.length)
  let r ← blanks? rest
  let (hour, r) ← number? 2 2 r
  let r ← exactly? ':' (trimLeft r)
  let (minute, r) ← number? 2 2 (trimLeft r)
  let (second, r) ← match exactly? ':' (trimLeft r) with
    | some r => number? 2 2 r
    | none => some (0, r)
  let r ← blanks? r
  let (offset, r) ← zone? r
  let month := month + 1
  let days := daysFromEpoch year month day
  let sound := onlyComments r.length r && 1 ≤ day && day ≤ daysIn year month && hour < 24 &&
    minute < 60 && second ≤ 60 && offset.natAbs < 86400 && weekday.all (· = weekdayOf days)
  let seconds := days * 86400 + ((hour * 3600 + minute * 60 + min second 59 : Nat) : Int) - offset
  if sound && seconds < daysFromEpoch (lastYear + 1) 1 1 * 86400 then
    return seconds * 1000 + (if second = 60 then 1000 else 0)
  else none

end TierCache.MailDate
