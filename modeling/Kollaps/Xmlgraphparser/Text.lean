import Kollaps.Data

/-!
# Texts read as values

What the standard library makes of an attribute: addresses, floats, and words in upper case.
-/

namespace Kollaps

namespace Text

abbrev Reader (α : Type) := List Char → Option (α × List Char)

/-! ## Numbers -/

def digit (radix : Nat) (c : Char) : Option Nat :=
  let d :=
    if '0' ≤ c ∧ c ≤ '9' then c.toNat - '0'.toNat
    else if 'a' ≤ c ∧ c ≤ 'z' then c.toNat - 'a'.toNat + 10
    else if 'A' ≤ c ∧ c ≤ 'Z' then c.toNat - 'A'.toNat + 10
    else radix
  if d < radix then some d else none

def value (radix : Nat) (cs : List Char) : Nat :=
  cs.foldl (fun n c => n * radix + (digit radix c).getD 0) 0

def isDigit (radix : Nat) (c : Char) : Bool := (digit radix c).isSome

/-- `read_number`, for numbers up to `limit`. -/
def readNumber (radix maxDigits : Nat) (allowZeroPrefix : Bool) (limit : Nat) : Reader Nat := fun cs =>
  let digits := cs.takeWhile (isDigit radix)
  if digits = [] ∨ maxDigits < digits.length ∨ limit < value radix digits then none
  else if allowZeroPrefix = false ∧ 1 < digits.length ∧ digits.head? = some '0' then none
  else some (value radix digits, cs.dropWhile (isDigit radix))

def readChar (c : Char) : Reader Unit
  | d :: cs => if d = c then some ((), cs) else none
  | [] => none

/-- `read_separator`: the separator stands before every element but the first. -/
def readSeparator {α : Type} (sep : Char) (first : Bool) (inner : Reader α) : Reader α := fun cs =>
  if first then inner cs else (readChar sep cs).bind fun r => inner r.2

/-! ## Addresses -/

/-- `n` numbers of an IPv4 address. -/
def readOctets : Nat → Bool → Reader (List Nat)
  | 0, _, cs => some ([], cs)
  | n + 1, first, cs =>
    (readSeparator '.' first (readNumber 10 3 false 255) cs).bind fun (octet, cs) =>
      (readOctets n false cs).map fun (octets, cs) => (octet :: octets, cs)

def join (width : Nat) (groups : List Nat) : Nat := groups.foldl (fun n g => n * width + g) 0

def readIpv4Addr : Reader (BitVec 32) := fun cs =>
  (readOctets 4 true cs).map fun (octets, cs) => (BitVec.ofNat 32 (join 256 octets), cs)

/-- `read_groups`, into `left` places: the groups, and whether an IPv4 address ends them. -/
def readGroups : Nat → Bool → List Char → List Nat × Bool × List Char
  | 0, _, cs => ([], false, cs)
  | left + 1, first, cs =>
    match (if left = 0 then none else readSeparator ':' first readIpv4Addr cs) with
    | some (v4, cs) => ([v4.toNat / 65536, v4.toNat % 65536], true, cs)
    | none =>
      match readSeparator ':' first (readNumber 16 4 true 65535) cs with
      | some (group, cs) =>
        let (groups, endsV4, cs) := readGroups left false cs
        (group :: groups, endsV4, cs)
      | none => ([], false, cs)

def readIpv6Addr : Reader (BitVec 128) := fun cs =>
  let (head, endsV4, cs) := readGroups 8 true cs
  if head.length = 8 then some (BitVec.ofNat 128 (join 65536 head), cs)
  else if endsV4 then none
  else
    ((readChar ':' cs).bind fun r => readChar ':' r.2).map fun r =>
      let (tail, _, cs) := readGroups (8 - (head.length + 1)) true r.2
      let zeros := List.replicate (8 - head.length - tail.length) 0
      (BitVec.ofNat 128 (join 65536 (head ++ zeros ++ tail)), cs)

/-- `IpAddr::from_str` -/
def ipAddr (text : String) : Option IpAddr :=
  let cs := text.toList
  let addr := match readIpv4Addr cs with
    | some (v4, cs) => some (IpAddr.v4 v4, cs)
    | none => (readIpv6Addr cs).map fun (v6, cs) => (IpAddr.v6 v6, cs)
  addr.bind fun (addr, cs) => if cs = [] then some addr else none

/-! ## Floats -/

def u64Max : Nat := 18446744073709551615

def sign : List Char → Bool × List Char
  | '-' :: cs => (true, cs)
  | '+' :: cs => (false, cs)
  | cs => (false, cs)

def lower (cs : List Char) : List Char := cs.map Char.toLower

def exponent : List Char → Option Int
  | [] => some 0
  | e :: cs =>
    let (negative, digits) := sign cs
    if e.toLower = 'e' ∧ digits ≠ [] ∧ digits.all (isDigit 10) = true then
      some (if negative then -(value 10 digits : Int) else value 10 digits)
    else none

def scale (n : Nat) (e : Int) : ℚ := (n * Nat.pow 10 e.toNat : Nat) / (Nat.pow 10 (-e).toNat : Nat)

/-- Digits, with a point before, between or after them, and the exponent. -/
def number (cs : List Char) : Option ℚ :=
  let whole := cs.takeWhile (isDigit 10)
  let rest := cs.dropWhile (isDigit 10)
  let (fraction, rest) := match rest with
    | '.' :: rest => (rest.takeWhile (isDigit 10), rest.dropWhile (isDigit 10))
    | _ => ([], rest)
  if whole = [] ∧ fraction = [] then none
  else (exponent rest).map fun e => scale (value 10 (whole ++ fraction)) (e - fraction.length)

/-- `f32::from_str` and `f64::from_str`. -/
def float (f : Binary.Format) (text : String) : Option (Binary.Value f) :=
  let (negative, cs) := sign text.toList
  if lower cs = ['i', 'n', 'f'] ∨ lower cs = ['i', 'n', 'f', 'i', 'n', 'i', 't', 'y'] then
    some (.infinite negative)
  else if lower cs = ['n', 'a', 'n'] then some .nan
  else (number cs).map fun q => .round f (if negative then -q else q)

/-! ## Words -/

/-- The upper case of a character, where it is ASCII. -/
def upperChar (c : Char) : List Char :=
  match c with
  | 'ß' => ['S', 'S']
  | 'ı' => ['I']
  | 'ſ' => ['S']
  | 'ﬀ' => ['F', 'F']
  | 'ﬁ' => ['F', 'I']
  | 'ﬂ' => ['F', 'L']
  | 'ﬃ' => ['F', 'F', 'I']
  | 'ﬄ' => ['F', 'F', 'L']
  | 'ﬅ' | 'ﬆ' => ['S', 'T']
  | c => [c.toUpper]

/-- `to_uppercase`, which is only compared with ASCII words: other characters stay. -/
def toUppercase (text : String) : String := String.ofList (text.toList.flatMap upperChar)

def hexDigit (n : Nat) : Char := "0123456789abcdef".toList.getD n '0'

/-- The text of a uuid: 32 hexadecimal digits, with hyphens. -/
def uuid (u : Uuid) : String :=
  let digit (i : Nat) : Char := hexDigit ((u.bits >>> (4 * (31 - i))).toNat % 16)
  String.ofList ((List.range 32).flatMap fun i =>
    if i = 8 ∨ i = 12 ∨ i = 16 ∨ i = 20 then ['-', digit i] else [digit i])

example : ipAddr "10.1.0.255" = some (.v4 0x0A0100FF) := by decide +kernel

example : ipAddr "fe80::1:10.0.0.1" = some (.v6 0xfe8000000000000000000001_0a000001) := by decide +kernel

example : ipAddr "10.0.0.01" = none ∧ ipAddr "10.0.0.1 " = none ∧ ipAddr "1::2::3" = none := by
  decide +kernel

example : float .binary32 "-1.25e2" = some (.round _ (-125)) ∧ float .binary32 "." = none := by
  decide +kernel

/-- A number next to zero is no negative time. -/
example : float .binary64 "-1e-400" = some 0 := by decide +kernel

end Text

end Kollaps
