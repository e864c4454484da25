import Rbml.Image
import Rbml.Machine.State

/-!
# Console input and output (`rbml.c`)

`cread` fills a local word from `stdin`, as characters (`fgets` into its bytes) or as a number
(`scanf`), and `cwrite` prints a word, as its bytes from the most significant one or in decimal.
What `fgets` and `scanf` do not write keeps the content it had, and the local word has none of its
own, so `cread` starts from the content `w` that it is given.

`fgets`, `scanf("%d")` and `printf("%d")` follow ISO C. A number too large for an `int`, which ISO C
leaves open, is converted as the common C library does it: to the nearest `long`, then to `int`.
-/

namespace Rbml.Machine

/-! ## The C library -/

/-- The bytes `new` written over the first bytes of a word -/
def overwriteWord (new : List UInt8) (w : Word) : Word :=
  match new ++ (bytesOfWord w).drop new.length with
  | b₀ :: b₁ :: b₂ :: b₃ :: _ => wordOfBytes b₀ b₁ b₂ b₃
  | _ => w

def newline : UInt8 := 10

/-- The characters `fgets` reads when it may read `n`: up to a newline, which it keeps -/
def fgetsChars : Nat → List UInt8 → List UInt8 × List UInt8
  | 0, stdin => ([], stdin)
  | _, [] => ([], [])
  | n + 1, c :: stdin =>
    if c = newline then ([c], stdin)
    else
      let (s, rest) := fgetsChars n stdin
      (c :: s, rest)

/-- `fgets((char *) &w, sizeof(w), stdin)`: at most three characters and a final NUL. At the end of
the input it writes nothing. -/
def fgetsWord (w : Word) (stdin : List UInt8) : Word × List UInt8 :=
  match fgetsChars 3 stdin with
  | ([], rest) => (w, rest)
  | (s, rest) => (overwriteWord (s ++ [0]) w, rest)

/-- `isspace` -/
def isSpace (c : UInt8) : Bool := c == 32 || (9 ≤ c && c ≤ 13)

def isDigit (c : UInt8) : Bool := 48 ≤ c && c ≤ 57

/-- The number that decimal digits denote -/
def digitsValue (digits : List UInt8) : Nat :=
  digits.foldl (fun n d => 10 * n + (d.toNat - 48)) 0

/-- A number as a `long` of 64 bits: the nearest one -/
def clampLong (i : Int) : Int := max (-(2 ^ 63)) (min i (2 ^ 63 - 1))

/-- `scanf("%d", &w)`: white space, a sign, digits. Without a digit it writes nothing. -/
def scanfWord (w : Word) (stdin : List UInt8) : Word × List UInt8 :=
  let stdin := stdin.dropWhile isSpace
  let (negative, stdin) :=
    match stdin with
    | 45 :: rest => (true, rest)
    | 43 :: rest => (false, rest)
    | _ => (false, stdin)
  match stdin.span isDigit with
  | ([], rest) => (w, rest)
  | (digits, rest) =>
    let n : Int := digitsValue digits
    (BitVec.ofInt 32 (clampLong (if negative then -n else n)), rest)

/-- The decimal text of a number, as `printf("%d")` prints it -/
def decimalText (i : Int) : List UInt8 :=
  let digits := (Nat.toDigits 10 i.natAbs).map fun c => UInt8.ofNat c.toNat
  if i < 0 then 45 :: digits else digits

/-! ## `cread` and `cwrite` -/

variable {N : Nat}

/-- `cread`, with the content that its local word starts from -/
def cread (w : Word) (fcontrol : Fin 16) (m : State N) : Word × State N :=
  let (w, stdin) := if fcontrol ≠ 0 then fgetsWord w m.stdin else scanfWord w m.stdin
  (w, { m with stdin })

/-- `cwrite` -/
def cwrite (fcontrol : Fin 16) (w : Word) (m : State N) : State N :=
  if fcontrol ≠ 0 then { m with stdout := m.stdout ++ (bytesOfWord w).reverse }
  else { m with stdout := m.stdout ++ decimalText w.toInt ++ [newline] }

end Rbml.Machine
