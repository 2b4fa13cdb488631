/-
`ReadInGR` of `sources/gapbs/src/reader.h`, and the DIMACS `.gr` files
it is for.

The reader looks at the next character. At an `a` it takes that
character and three numbers, and appends an edge whose ends count from
0; at anything else it drops at most 200 characters, fewer when a line
ends among them. The loop goes on until the stream has run into the end
of the file. It never asks whether a number was there: what the
variables hold is then what an earlier line or nothing has put there.

`NodeID` and `WeightT` are `int32_t`. A variable that was never assigned
is `none`; reading it is a fault, and so is a subtraction that
overflows.
-/
import ThesisBench.Lib.IStream
import ThesisBench.Lib.While
import Mathlib.Algebra.Ring.Int.Defs
import Mathlib.Algebra.Ring.Nat

namespace ThesisBench.Gapbs

open IStream

-- ============================================================ the reader

/-- An edge with its weight, as it is read. -/
structure ReadEdge where
  u : Int
  v : Int
  w : Int
  deriving DecidableEq, Repr

/-- What `ReadInGR` works on: the stream `in`, its variables `u` and `v`
(a `NodeWeight`, here `v` and `w`), and `el`. -/
structure GrState where
  input : IStream
  u : Option Int
  v : Option Int
  w : Option Int
  el : List ReadEdge
  deriving DecidableEq, Repr

/-- `in >> x` for an `int32_t` -/
def getInt32 (s : IStream) (x : Option Int) : Option Int × IStream :=
  s.getInt (-2 ^ 31) (2 ^ 31 - 1) x

/-- `x - 1` of an `int32_t` -/
def pred32 (x : Int) : Option Int := if x = -2 ^ 31 then none else some (x - 1)

/-- `in >> c >> u >> v` and `el.push_back(..)` -/
def GrState.readArc (s : GrState) : Option GrState := do
  let c := s.input.getChar
  let u := getInt32 c.2 s.u
  let v := getInt32 u.2 s.v
  let w := getInt32 v.2 s.w
  let edge : ReadEdge := ⟨← u.1 >>= pred32, ← v.1 >>= pred32, ← w.1⟩
  return ⟨w.2, u.1, v.1, w.1, s.el ++ [edge]⟩

/-- One turn of the loop; 97 is `'a'`. -/
def GrState.turn (s : GrState) : Option GrState :=
  let c := s.input.peek
  if c.1 = some 97 then { s with input := c.2 }.readArc
  else some { s with input := c.2.ignore 200 newline }

/-- `!in.eof()` -/
def GrState.more (s : GrState) : Bool := !s.input.eof

def GrState.start (text : List UInt8) : GrState := ⟨ofText text, none, none, none, []⟩

/-- `none` when the reader faults or `fuel` turns were not enough. -/
def readInGR (fuel : Nat) (text : List UInt8) : Option (List ReadEdge) :=
  (While.loop GrState.more GrState.turn fuel (GrState.start text)).map GrState.el

-- ============================================================= the files

/-- The rest of a line. -/
structure LineText where
  chars : List UInt8
  one_line : newline ∉ chars

/-- What separates two fields of an arc line. -/
structure Blanks where
  chars : List UInt8
  nonempty : chars ≠ []
  blank : ∀ c ∈ chars, c = 32 ∨ c = 9

abbrev Decimal32 := Decimal (-2 ^ 31) (2 ^ 31 - 1)

/-- A line of a `.gr` file: `c ...`, `p ...` or `a u v w`. -/
inductive GrLine
  | comment (text : LineText)
  | problem (text : LineText)
  | arc (b₁ : Blanks) (u : Decimal32) (b₂ : Blanks) (v : Decimal32)
      (b₃ : Blanks) (w : Decimal32)

def GrLine.text : GrLine → List UInt8
  | .comment t => 99 :: t.chars
  | .problem t => 112 :: t.chars
  | .arc b₁ u b₂ v b₃ w =>
      97 :: (b₁.chars ++ (u.text ++ (b₂.chars ++ (v.text ++ (b₃.chars ++ w.text)))))

/-- The edge an arc line is about. -/
def GrLine.edges : GrLine → List ReadEdge
  | .comment _ => []
  | .problem _ => []
  | .arc _ u _ v _ w => [⟨u.value - 1, v.value - 1, w.value⟩]

/-- A file of these lines; `final` says whether the last line is
ended. -/
def grText (final : Bool) (lines : List GrLine) : List UInt8 :=
  List.intercalate [newline] (lines.map GrLine.text) ++ if final then [newline] else []

def grEdges (lines : List GrLine) : List ReadEdge := lines.flatMap GrLine.edges

/-- Some multiple of 200 characters into `t` there is an `a`. -/
def Marked (t : List UInt8) : Prop := ∃ k < t.length, t[200 * k]? = some 97

instance (t : List UInt8) : Decidable (Marked t) :=
  inferInstanceAs (Decidable (∃ k < t.length, t[200 * k]? = some 97))

/-- A line the reader is right about. -/
def GrLine.Clean : GrLine → Prop
  | .comment t => ¬ Marked (99 :: t.chars)
  | .problem t => ¬ Marked (112 :: t.chars)
  | .arc _ u _ v _ _ => u.value ≠ -2 ^ 31 ∧ v.value ≠ -2 ^ 31

instance : (l : GrLine) → Decidable l.Clean
  | .comment t => inferInstanceAs (Decidable (¬ Marked (99 :: t.chars)))
  | .problem t => inferInstanceAs (Decidable (¬ Marked (112 :: t.chars)))
  | .arc _ u _ v _ _ => inferInstanceAs (Decidable (u.value ≠ -2 ^ 31 ∧ v.value ≠ -2 ^ 31))

end ThesisBench.Gapbs
