import StageChain.Setting

/-! The line structure, strings, keys, numbers and other single words of TOML. -/
namespace StageChain.Toml

/-- Arrays and inline tables nest fewer levels than this, and keys have fewer parts. -/
def maxLevels : Nat := 80

def isGap (c : Char) : Bool := c == ' ' || c == '\t'

def skipGaps (s : List Char) : List Char := s.dropWhile isGap

/-- No control character but the tab. -/
def isPrintable (c : Char) : Bool := c == '\t' || (32 ≤ c.toNat && c.toNat != 127)

def skipLines (inComment : Bool) : List Char → Option (List Char)
  | [] => some []
  | '\n' :: rest => skipLines false rest
  | '\x0d' :: '\n' :: rest => skipLines false rest
  | c :: rest =>
      if inComment then if isPrintable c then skipLines true rest else none
      else if isGap c then skipLines false rest
      else if c = '#' then skipLines true rest
      else some (c :: rest)

def lineEnd (s : List Char) : Option (List Char) :=
  let s := match skipGaps s with
    | '#' :: s => s.dropWhile isPrintable
    | s => s
  match s with
  | [] => some []
  | '\n' :: rest => some rest
  | '\x0d' :: '\n' :: rest => some rest
  | _ => none

/-! ## Strings -/

def codePoint? (digits : List Char) : Option Char := do
  let n ← Hexadecimal.number? digits
  if n.isValidChar then some (Char.ofNat n) else none

def unescape? : Char → Option Char
  | '"' => some '"'
  | '\\' => some '\\'
  | 'b' => some '\x08'
  | 'f' => some '\x0c'
  | 'n' => some '\n'
  | 'r' => some '\x0d'
  | 't' => some '\t'
  | _ => none

def endsLine (s : List Char) : Bool :=
  match skipGaps s with
  | '\n' :: _ | '\x0d' :: '\n' :: _ => true
  | _ => false

def dropLineEnd : List Char → List Char
  | '\n' :: rest => rest
  | '\x0d' :: '\n' :: rest => rest
  | s => s

def isClosing (quote : Char) (s : List Char) : Bool := s.take 3 == [quote, quote, quote]

/-- Passes over three quotes that close a string. Two more may precede them and belong to the
string. -/
def closeLines (quote : Char) (s : List Char) : List Char × List Char :=
  let extra := min 2 ((s.takeWhile (· == quote)).length - 3)
  (List.replicate extra quote, s.drop (extra + 3))

/-- Reads a string in double quotes, behind the opening ones. A string of several `lines` closes
with three quotes. A backslash at the end of a line joins it with the next text: `joining` says
that blanks and line ends are passed over on the way there. -/
def basicString (lines joining : Bool) : List Char → Option (List Char × List Char)
  | [] => none
  | '\\' :: 'u' :: a :: b :: c :: d :: rest => do
      let x ← codePoint? [a, b, c, d]
      let (xs, rest) ← basicString lines false rest
      return (x :: xs, rest)
  | '\\' :: 'U' :: a :: b :: c :: d :: e :: f :: g :: h :: rest => do
      let x ← codePoint? [a, b, c, d, e, f, g, h]
      let (xs, rest) ← basicString lines false rest
      return (x :: xs, rest)
  | '\\' :: c :: rest =>
      if lines && endsLine (c :: rest) then basicString lines true (c :: rest)
      else do
        let x ← unescape? c
        let (xs, rest) ← basicString lines false rest
        return (x :: xs, rest)
  | c :: rest =>
      if !lines && c == '"' then some ([], rest)
      else if lines && isClosing '"' (c :: rest) then some (closeLines '"' (c :: rest))
      else if lines && c == '\x0d' && rest.head? == some '\n' then basicString lines joining rest
      else if joining && (isGap c || c == '\n') then basicString lines true rest
      else do
        guard (isPrintable c || (lines && c == '\n'))
        let (xs, rest) ← basicString lines false rest
        return (c :: xs, rest)

def literalString (lines : Bool) : List Char → Option (List Char × List Char)
  | [] => none
  | c :: rest =>
      if !lines && c == '\'' then some ([], rest)
      else if lines && isClosing '\'' (c :: rest) then some (closeLines '\'' (c :: rest))
      else if lines && c == '\x0d' && rest.head? == some '\n' then literalString lines rest
      else do
        guard (isPrintable c || (lines && c == '\n'))
        let (xs, rest) ← literalString lines rest
        return (c :: xs, rest)

def string? : List Char → Option (String × List Char)
  | '"' :: '"' :: '"' :: s => done (basicString true false (dropLineEnd s))
  | '"' :: s => done (basicString false false s)
  | '\'' :: '\'' :: '\'' :: s => done (literalString true (dropLineEnd s))
  | '\'' :: s => done (literalString false s)
  | _ => none
where
  done (r : Option (List Char × List Char)) : Option (String × List Char) :=
    r.map fun (x, rest) => (String.ofList x, rest)

/-! ## Keys -/

def isBareChar (c : Char) : Bool := c.isAlphanum || c == '_' || c == '-'

def keyPart : List Char → Option (String × List Char)
  | '"' :: s => (basicString false false s).map fun (k, rest) => (String.ofList k, rest)
  | '\'' :: s => (literalString false s).map fun (k, rest) => (String.ofList k, rest)
  | s =>
      let k := s.takeWhile isBareChar
      if k.isEmpty then none else some (String.ofList k, s.dropWhile isBareChar)

def keyParts : Nat → List Char → Option (List String × List Char)
  | 0, _ => none
  | room + 1, s =>
      match keyPart (skipGaps s) with
      | none => none
      | some (k, rest) =>
          match skipGaps rest with
          | '.' :: rest => (keyParts room rest).map fun (ks, rest) => (k :: ks, rest)
          | rest => some ([k], rest)

def key (s : List Char) : Option (List String × List Char) := keyParts (maxLevels - 1) s

/-! ## Words -/

/-- Digits with single underscores between them, without the underscores. -/
def grouped? (isDigit : Char → Bool) (s : List Char) : Option (List Char) :=
  let groups := s.splitOn '_'
  if groups.all fun g => !g.isEmpty && g.all isDigit then some groups.flatten else none

def decimalDigits? (s : List Char) : Option (List Char) := grouped? Char.isDigit s

/-- Digits without a zero in front of others. -/
def wholeDigits? (s : List Char) : Option (List Char) := do
  let ds ← decimalDigits? s
  guard (ds.head? != some '0' || s.length == 1)
  return ds

def signed : List Char → Bool × List Char
  | '-' :: s => (true, s)
  | '+' :: s => (false, s)
  | s => (false, s)

def inRange? (n : Int) : Option Setting :=
  if Int64.minValue.toInt ≤ n ∧ n ≤ Int64.maxValue.toInt then some (.int n) else none

def natural? (base : Nat) (s : List Char) : Option Nat := do
  let ds ← grouped? (fun c => ((Hexadecimal.value? c).any (· < base))) s
  ds.foldlM (fun n c => (Hexadecimal.value? c).map fun d => base * n + d) 0

def integer? : List Char → Option Setting
  | '0' :: 'x' :: s => do inRange? (← natural? 16 s)
  | '0' :: 'o' :: s => do inRange? (← natural? 8 s)
  | '0' :: 'b' :: s => do inRange? (← natural? 2 s)
  | s => do
      let (negative, s) := signed s
      let n : Int := Nat.ofDigitChars 10 (← wholeDigits? s) 0
      inRange? (if negative then -n else n)

def exponent? (s : List Char) : Option Int := do
  let (negative, s) := signed s
  let n : Int := Nat.ofDigitChars 10 (← decimalDigits? s) 0
  return if negative then -n else n

def splitAtFirst (p : Char → Bool) (s : List Char) : List Char × Option (List Char) :=
  match s.span (!p ·) with
  | (before, []) => (before, none)
  | (before, _ :: after) => (before, some after)

/-- A numeral with a fraction or an exponent, or a special number. One too large for any finite
number is refused, unless it is negative. -/
def float? (s : List Char) : Option Setting := do
  let (negative, s) := signed s
  if s = ['i', 'n', 'f'] then return .float (.infinite negative)
  else if s = ['n', 'a', 'n'] then return .float .nan
  else
    let (number, exp) := splitAtFirst (fun c => c == 'e' || c == 'E') s
    let (whole, frac) := splitAtFirst (· == '.') number
    guard (exp.isSome || frac.isSome)
    let whole ← wholeDigits? whole
    let frac ← (frac.map decimalDigits?).getD (some [])
    let exp ← (exp.map exponent?).getD (some 0)
    let x := Double.ofDecimal negative (Nat.ofDigitChars 10 (whole ++ frac) 0) (exp - frac.length)
    guard (x != .infinite false)
    return .float x

def isWordChar (c : Char) : Bool := isBareChar c || c == '+' || c == '.'

def word? (s : List Char) : Option Setting :=
  if s = ['t', 'r', 'u', 'e'] then some (.bool true)
  else if s = ['f', 'a', 'l', 's', 'e'] then some (.bool false)
  else (integer? s).orElse fun _ => float? s

end StageChain.Toml
