import Schemata.Lexeme.TopLevel

/-!
# Positions

The scanners of this library cut texts.  Here the same cuts are given by positions, counted in
characters from the start of the text.

A position below zero counts from the end.  A scan that starts there reads the last characters and
then, from position zero on, the whole text.
-/

namespace Schemata

/-- The position just after the literal that opens at a position. -/
def literalEnd (t : Text) (start : Nat) : Except SchemaError Nat :=
  match Text.takeLiteral (t.drop start) with
  | some (literal, _) => .ok (start + literal.length)
  | none => .error (unclosedLiteral (t.drop start))

/-- The position of the first line break from a position on, or the length of the text. -/
def commentEnd (t : Text) (start : Nat) : Nat :=
  min t.length (start + (Text.spanLine (t.drop start)).1.length)

/-- The position of the first top-level character satisfying `target` from a position on. -/
def topLevelIndex (target : Char → Bool) (t : Text) (start : Nat) :
    Except SchemaError (Option Nat) :=
  Option.map (fun (before, _) => start + before.length) <$> cutAt target (t.drop start)

/-- The position of the `closer` that matches the first `opener` from a position on. -/
def matchingIndex (opener closer : Char) (t : Text) (start : Nat) :
    Except SchemaError (Option Nat) :=
  Option.map (fun (inside, _) => start + inside.length - 1) <$>
    takeBalanced opener closer (t.drop start)

/-! ### Positions from the end -/

/-- The place in a text of a given length that a position means; one that lies outside means the
nearest end. -/
def place (length : Nat) (i : Int) : Nat :=
  if 0 ≤ i then min i.toNat length else (length + i).toNat

/-- The part of a text between two positions. -/
def between (t : Text) (i j : Int) : Text :=
  (t.drop (place t.length i)).take (place t.length j - place t.length i)

/-- What a scan from a position reads, if the text goes back so far. -/
def readOn? (t : Text) (i : Int) : Option Text :=
  if 0 ≤ i then some (t.drop i.toNat)
  else if 0 ≤ t.length + i then some (t.drop (t.length + i).toNat ++ t)
  else none

/-- How many characters the literal that opens at a position below zero has after its first one.  A
block string is looked for from the place behind its opening quotes. -/
def literalReach (t : Text) (start : Int) : Except Failure Nat :=
  let excerpt := between t start (start + 20)
  if Text.startsBlock (t.drop (place t.length start)) then
    let first := place t.length (start + 3)
    let previous := if first = 0 then t.getLast? else t[first - 1]?
    match Text.takeBlock (previous.getD '"') (t.drop first) with
    | some (body, _) => .ok (first + body.length - (start + 1)).toNat
    | none => .error (.schema (.unclosedBlockString excerpt))
  else
    match readOn? t (start + 1) with
    | none => .error .beforeText
    | some rest =>
        match Text.takePlain rest with
        | some (body, _) => .ok body.length
        | none => .error (.schema (.unclosedString excerpt))

/-- The position just after the literal that opens at a position. -/
def literalEndFrom (t : Text) (start : Int) : Except Failure Int :=
  if 0 ≤ start then
    match literalEnd t start.toNat with
    | .ok n => .ok n
    | .error e => .error (.schema e)
  else (fun reach => start + 1 + reach) <$> literalReach t start

/-- The position of the first line break from a position on, or the length of the text. -/
def commentEndFrom (t : Text) (start : Int) : Nat :=
  if 0 ≤ start then commentEnd t start.toNat else commentEnd t (place t.length start)

/-- A scan that begins `back` characters before the end of a text.  `step` is asked at each
character outside literals and gives the state after it, or ends the scan there; `rest` goes on from
a position that is not below zero. -/
def scanBack {σ : Type} (t : Text) (step : σ → Char → Option σ)
    (rest : σ → Nat → Except Failure (Option Nat)) (state : σ) :
    Nat → Except Failure (Option Int)
  | 0 => Option.map Int.ofNat <$> rest state 0
  | back + 1 =>
      if t.length ≤ back then .error .beforeText
      else
        match t[t.length - (back + 1)]? with
        | none => .error .beforeText
        | some '"' => do
            let reach ← literalReach t (-(back + 1 : Nat))
            if reach < back then scanBack t step rest state (back - reach)
            else Option.map Int.ofNat <$> rest state (reach - back)
        | some c =>
            match step state c with
            | none => .ok (some (-(back + 1 : Nat)))
            | some state => scanBack t step rest state back
termination_by back => back
decreasing_by
  · exact Nat.lt_succ_of_le (Nat.sub_le back reach)
  · exact Nat.lt_succ_self back

/-- The position of the first top-level character satisfying `target` from a position on. -/
def topLevelIndexFrom (target : Char → Bool) (t : Text) (start : Int) :
    Except Failure (Option Int) :=
  let rest (depth : Nat) (n : Nat) : Except Failure (Option Nat) :=
    match Lexeme.cutAt target depth (lex false (t.drop n)) with
    | .ok found => .ok (found.map fun (before, _) => n + before.length)
    | .error e => .error (.schema e)
  if 0 ≤ start then Option.map Int.ofNat <$> rest 0 start.toNat
  else
    scanBack t (fun depth c => if depth == 0 && target c then none else some (depthAfter depth c))
      rest 0 (-start).toNat

/-- The only character of a text.  For any other text it is a quote, which a scan never meets
outside literals. -/
def soleChar : Text → Char
  | [c] => c
  | _ => '"'

/-- The position of the `closer` that matches the first `opener` from a position on; both have to be
single characters to be found. -/
def matchingIndexFrom (opener closer : Text) (t : Text) (start : Int) :
    Except Failure (Option Int) :=
  let opener := soleChar opener
  let closer := soleChar closer
  let rest (depth : Int) (n : Nat) : Except Failure (Option Nat) :=
    match Lexeme.takeBalanced opener closer depth (lex false (t.drop n)) with
    | .ok found => .ok (found.map fun (inside, _) => n + inside.length - 1)
    | .error e => .error (.schema e)
  if 0 ≤ start then Option.map Int.ofNat <$> rest 0 start.toNat
  else
    scanBack t
      (fun depth c =>
        if c == opener then some (depth + 1)
        else if c == closer then if depth == 1 then none else some (depth - 1)
        else some depth)
      rest (0 : Int) (-start).toNat

end Schemata
