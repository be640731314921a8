import TermForest.Json.Decimal
import TermForest.Json.Value

/-!
# Reading JSON texts

The reader takes strict JSON: no comments, no trailing commas, no bare control characters in texts,
nothing but blanks after the document. Each function gives what it read and the rest of the text.
-/

namespace TermForest

namespace Json

/-! ### Characters -/

/-- The four blanks of JSON. -/
def isBlank (c : Char) : Bool := c = ' ' ∨ c = '\n' ∨ c = '\t' ∨ c = '\r'

/-- A text without its leading blanks. -/
def skipBlanks (cs : List Char) : List Char := cs.dropWhile isBlank

/-- The value of a hexadecimal digit of either case. -/
def hexValue? (c : Char) : Option Nat :=
  if '0' ≤ c ∧ c ≤ '9' then some (c.toNat - '0'.toNat)
  else if 'a' ≤ c ∧ c ≤ 'f' then some (c.toNat - 'a'.toNat + 10)
  else if 'A' ≤ c ∧ c ≤ 'F' then some (c.toNat - 'A'.toNat + 10)
  else none

/-! ### Texts -/

/-- The characters that 16-bit units stand for. Two surrogates, a high one before a low one, stand
for one character; any other surrogate stands for none. -/
def ofUnits? : List Nat → Option (List Char)
  | [] => some []
  | u :: rest =>
    if u < 0xD800 ∨ 0xDFFF < u then (ofUnits? rest).map (Char.ofNat u :: ·)
    else
      match rest with
      | v :: rest =>
        if u < 0xDC00 ∧ 0xDC00 ≤ v ∧ v ≤ 0xDFFF then
          (ofUnits? rest).map (Char.ofNat (0x10000 + (u - 0xD800) * 0x400 + (v - 0xDC00)) :: ·)
        else none
      | [] => none

/-- The rest of a text after its opening quote, as code points and escaped units. -/
def readUnits : List Char → Option (List Nat × List Char)
  | [] => none
  | '"' :: rest => some ([], rest)
  | '\\' :: 'u' :: a :: b :: c :: d :: rest => do
    let u := (← hexValue? a) * 4096 + (← hexValue? b) * 256 + (← hexValue? c) * 16 + (← hexValue? d)
    let (us, rest) ← readUnits rest
    return (u :: us, rest)
  | '\\' :: c :: rest => do
    let u ←
      match c with
      | '"' => some 0x22
      | '\\' => some 0x5C
      | '/' => some 0x2F
      | 'b' => some 0x08
      | 'f' => some 0x0C
      | 'n' => some 0x0A
      | 'r' => some 0x0D
      | 't' => some 0x09
      | _ => none
    let (us, rest) ← readUnits rest
    return (u :: us, rest)
  | c :: rest =>
    if c.toNat < 0x20 then none else do
      let (us, rest) ← readUnits rest
      return (c.toNat :: us, rest)

/-- A text after its opening quote. -/
def readText (cs : List Char) : Option (Option String × List Char) := do
  let (us, rest) ← readUnits cs
  return ((ofUnits? us).map String.ofList, rest)

/-! ### Numbers -/

/-- At least one digit. -/
def readDigits (cs : List Char) : Option (List Char × List Char) :=
  let ds := cs.takeWhile Char.isDigit
  if ds = [] then none else some (ds, cs.dropWhile Char.isDigit)

/-- Digits of which the first is not zero, or a single zero. -/
def readWhole : List Char → Option (List Char × List Char)
  | '0' :: rest => some (['0'], rest)
  | cs => readDigits cs

/-- The digits behind a point, if there is one. -/
def readFraction : List Char → Option (List Char × List Char)
  | '.' :: rest => readDigits rest
  | cs => some ([], cs)

/-- The number behind a letter `e`, with its sign. Digits beyond 64 bits make no difference to a
number that has so large a power of ten. -/
def readSigned : List Char → Option (Int × List Char)
  | '-' :: rest => do
    let (ds, rest) ← readDigits rest
    return (-((takeDigits 0 ds).1 : Int), rest)
  | '+' :: rest => do
    let (ds, rest) ← readDigits rest
    return ((takeDigits 0 ds).1, rest)
  | cs => do
    let (ds, rest) ← readDigits cs
    return ((takeDigits 0 ds).1, rest)

/-- The exponent of a number, if there is one. -/
def readExponent : List Char → Option (Option Int × List Char)
  | 'e' :: rest | 'E' :: rest => do
    let (e, rest) ← readSigned rest
    return (some e, rest)
  | cs => some (none, cs)

/-- A number after its sign. It is a whole one if it has neither fraction nor exponent and fits 64
bits, with a sign if it has one. -/
def readUnsigned (negative : Bool) (cs : List Char) : Option (Json × List Char) := do
  let (whole, rest) ← readWhole cs
  let (fraction, rest) ← readFraction rest
  let (exponent, rest) ← readExponent rest
  let (m, e) := scale whole fraction (exponent.getD 0)
  if fraction ≠ [] ∨ exponent.isSome ∨ e ≠ 0 then return (.decimal m e, rest)
  else if !negative then return (.int m, rest)
  else if 0 < m ∧ 2 * m ≤ UInt64.size then return (.int (-(m : Int)), rest)
  else return (.decimal m 0, rest)

/-- A number. -/
def readNumber : List Char → Option (Json × List Char)
  | '-' :: rest => readUnsigned true rest
  | cs => readUnsigned false cs

/-! ### Documents -/

mutual

/-- A document, with blanks before it. Every call of the three functions takes at least one
character, so the length of the text bounds their number. -/
def read : Nat → List Char → Option (Json × List Char)
  | 0, _ => none
  | steps + 1, cs =>
    match skipBlanks cs with
    | 'n' :: 'u' :: 'l' :: 'l' :: rest => some (.null, rest)
    | 't' :: 'r' :: 'u' :: 'e' :: rest => some (.bool true, rest)
    | 'f' :: 'a' :: 'l' :: 's' :: 'e' :: rest => some (.bool false, rest)
    | '"' :: rest => do
      let (t, rest) ← readText rest
      return (.text t, rest)
    | '[' :: rest =>
      match skipBlanks rest with
      | ']' :: rest => some (.array [], rest)
      | rest => do
        let (items, rest) ← readItems steps rest
        return (.array items, rest)
    | '{' :: rest =>
      match skipBlanks rest with
      | '}' :: rest => some (.object [], rest)
      | rest => do
        let (members, rest) ← readMembers steps rest
        return (.object members, rest)
    | cs => readNumber cs

/-- The items of an array, to its closing bracket. -/
def readItems : Nat → List Char → Option (List Json × List Char)
  | 0, _ => none
  | steps + 1, cs => do
    let (j, rest) ← read steps cs
    match skipBlanks rest with
    | ']' :: rest => return ([j], rest)
    | ',' :: rest =>
      let (js, rest) ← readItems steps rest
      return (j :: js, rest)
    | _ => none

/-- The members of an object, to its closing brace. -/
def readMembers : Nat → List Char → Option (List (Option String × Json) × List Char)
  | 0, _ => none
  | steps + 1, cs =>
    match skipBlanks cs with
    | '"' :: rest => do
      let (key, rest) ← readText rest
      match skipBlanks rest with
      | ':' :: rest =>
        let (j, rest) ← read steps rest
        match skipBlanks rest with
        | '}' :: rest => return ([(key, j)], rest)
        | ',' :: rest =>
          let (ms, rest) ← readMembers steps rest
          return ((key, j) :: ms, rest)
        | _ => none
      | _ => none
    | _ => none

end

/-- The document that a text consists of. -/
def parse? (s : String) : Option Json :=
  let cs := s.toList
  match read (cs.length + 1) cs with
  | some (j, rest) => if skipBlanks rest = [] then some j else none
  | none => none

end Json

end TermForest
