import TemplateCompiler.Expr.Basic
import TemplateCompiler.Expr.Syntax

/-!
# Reading expressions

A recursive descent over the tokens of an expression, one definition per level of precedence:
pipes, conditionals, the binary levels of `binaryLevels`, prefix operators, the chain of accesses
and calls after a primary expression.

Text in brackets and after an operator nests expressions in expressions. The levels do not call
themselves for it but the parsers `Nested`, which are the same levels one step deeper. Every step
down has read a token, so `Nested.ofDepth n` reads every expression of at most `n` tokens; of no
tokens at all it can only report that the expression ends. Repetitions are bounded in the same way
by the number of tokens left.
-/

namespace TemplateCompiler.Parser

/-- What is being read. -/
structure Setting where
  /-- The text of the expression. -/
  input : Text
  location : Text
  /-- How far into its file the binding starts. -/
  absolute : Int
  /-- How far into the binding the expression starts. -/
  offset : Nat
  /-- Whether assignments and chains are allowed, and pipes are not. -/
  action : Bool

/-- The tokens left, and where the last one read ended in the binding. -/
structure Cursor where
  tokens : List Token
  last : Nat

abbrev Reader := StateT Cursor (Except SyntaxError)

variable (cx : Setting)

/-- Where the next token starts. -/
def Cursor.position (c : Cursor) : Nat :=
  match c.tokens with
  | [] => c.last
  | t :: _ => t.start + cx.offset

def Cursor.place (c : Cursor) : SyntaxPlace :=
  match c.tokens with
  | [] => .atEnd
  | t :: _ => .column (t.start + 1)

/-- The next token as it is shown in messages. -/
def Cursor.nextText (c : Cursor) : Text :=
  match c.tokens with
  | [] => []
  | t :: _ => t.lexeme.text

/-- Gives up at the next token. -/
def fail {α : Type} (cause : SyntaxCause) : Reader α := fun c =>
  .error ⟨cause, c.place, cx.input, cx.location⟩

/-- Where the next token starts. -/
def position : Reader Nat := fun c => .ok (c.position cx, c)

/-- The place from `start` to the end of the last token. -/
def placeFrom (start : Nat) : Reader Place := fun c =>
  .ok (Place.shifted cx.absolute ⟨start, c.last⟩, c)

/-- The next lexeme, left in place. -/
def peek : Reader (Option Lexeme) := fun c => .ok (c.tokens.head?.map Token.lexeme, c)

def remaining : Reader Nat := fun c => .ok (c.tokens.length, c)

/-- Moves behind the next token. -/
def advance : Reader Unit := fun c =>
  match c.tokens with
  | [] => .ok ((), c)
  | t :: rest => .ok ((), ⟨rest, t.stop + cx.offset⟩)

/-- Reads the next token if it has the given lexeme. -/
def accept (l : Lexeme) : Reader Bool := do
  if (← peek) = some l then
    advance cx
    return true
  else return false

def expect (b : UInt8) : Reader Unit := do
  unless ← accept cx (.character b) do fail cx (.missing b)

/-- The punctuation written as a character. -/
def mark (c : Char) : Lexeme := .character c.toUInt8

def name : Reader Text := do
  match ← peek with
  | some (.identifier t) => advance cx; return t
  | some (.keyword t) => advance cx; return t
  | some l => fail cx (.noName l.text)
  | none => fail cx (.noName [])

def mapKey : Reader MapKey := do
  match ← peek with
  | some (.identifier t) => advance cx; return ⟨t, false⟩
  | some (.keyword t) => advance cx; return ⟨t, false⟩
  | some (.string t) => advance cx; return ⟨t, true⟩
  | some l => fail cx (.noKey l.text)
  | none => fail cx (.noKey [])

def allowAssignment : Reader Unit := do
  unless cx.action do fail cx .assignment

/-- The parsers for expressions inside expressions. -/
structure Nested where
  pipe : Reader Expr
  conditional : Reader Expr

variable (inner : Nested)

/-! ### Lists -/

def itemsAfterCommas : Nat → Reader (List Expr)
  | 0 => return []
  | n + 1 => do
    if ← accept cx (mark ',') then
      let e ← inner.pipe
      return e :: (← itemsAfterCommas n)
    else return []

/-- Items separated by commas up to `close`, which is left in place. -/
def items (close : UInt8) : Reader (List Expr) := do
  if (← peek) = some (.character close) then return []
  else
    let e ← inner.pipe
    return e :: (← itemsAfterCommas cx inner (← remaining))

/-- A key, a colon and a value. -/
def mapEntry : Reader (MapKey × Expr) := do
  let key ← mapKey cx
  expect cx ':'.toUInt8
  return (key, ← inner.pipe)

def entriesAfterCommas : Nat → Reader (List (MapKey × Expr))
  | 0 => return []
  | n + 1 => do
    if ← accept cx (mark ',') then
      let e ← mapEntry cx inner
      return e :: (← entriesAfterCommas n)
    else return []

def mapLiteral (start : Nat) : Reader Expr := do
  advance cx
  if ← accept cx (mark '\x7d') then return .map (← placeFrom cx start) [] []
  else
    let first ← mapEntry cx inner
    let entries := first :: (← entriesAfterCommas cx inner (← remaining))
    expect cx '\x7d'.toUInt8
    return .map (← placeFrom cx start) (entries.map (·.1)) (entries.map (·.2))

/-! ### Accesses and calls -/

/-- The member access after a point: a call, an assignment or a read. -/
def member (receiver : Expr) (start : Nat) (safe : Bool) : Reader Expr := do
  let id ← name cx
  if ← accept cx (mark '(') then
    let args ← items cx inner ')'.toUInt8
    expect cx ')'.toUInt8
    let place ← placeFrom cx start
    return if safe then .safeMethod place receiver id args else .method place receiver id args
  else if safe then
    if (← peek) = some (.operator "=") then fail cx .safeAssignment
    return .safeRead (← placeFrom cx start) receiver id
  else if ← accept cx (.operator "=") then
    allowAssignment cx
    let value ← inner.conditional
    return .write (← placeFrom cx start) receiver id value
  else return .read (← placeFrom cx start) receiver id

/-- An expression without operators around it. -/
def primary : Reader Expr := do
  let start ← position cx
  let literal (value : Primitive) : Reader Expr := do
    advance cx
    return .literal (← placeFrom cx start) value
  match ← peek with
  | none => fail cx (.endOfExpression cx.input)
  | some (.number d) => literal (.double d)
  | some (.string t) => literal (.text t)
  | some (.identifier _) =>
    member cx inner (.context (Place.shifted cx.absolute ⟨start, start⟩)) start false
  | some l =>
    if l = mark '(' then
      advance cx
      let e ← inner.pipe
      expect cx ')'.toUInt8
      return e
    else if l = .keyword "null" ∨ l = .keyword "undefined" then literal .null
    else if l = .keyword "true" then literal (.bool true)
    else if l = .keyword "false" then literal (.bool false)
    else if l = .keyword "this" then
      advance cx
      return .context (← placeFrom cx start)
    else if l = mark '[' then
      advance cx
      let es ← items cx inner ']'.toUInt8
      expect cx ']'.toUInt8
      return .array (← placeFrom cx start) es
    else if l = mark '\x7b' then mapLiteral cx inner start
    else fail cx (.unexpected l.text)

/-- Accesses, calls and assertions after an expression. -/
def accesses (start : Nat) : Nat → Expr → Reader Expr
  | 0, e => return e
  | n + 1, e => do
    if ← accept cx (mark '.') then accesses start n (← member cx inner e start false)
    else if ← accept cx (.operator "?.") then accesses start n (← member cx inner e start true)
    else if ← accept cx (mark '[') then
      let key ← inner.pipe
      expect cx ']'.toUInt8
      if ← accept cx (.operator "=") then
        allowAssignment cx
        let value ← inner.conditional
        accesses start n (.indexWrite (← placeFrom cx start) e key value)
      else accesses start n (.index (← placeFrom cx start) e key)
    else if ← accept cx (mark '(') then
      let args ← items cx inner ')'.toUInt8
      expect cx ')'.toUInt8
      accesses start n (.call (← placeFrom cx start) e args)
    else if ← accept cx (.operator "!") then
      accesses start n (.present (← placeFrom cx start) e)
    else return e

/-- A primary expression with what follows it. -/
def callChain : Reader Expr := do
  let start ← position cx
  let e ← primary cx inner
  accesses cx inner start (← remaining) e

/-! ### Operators -/

/-- Prefix operators. A sign subtracts from zero, or subtracts zero. -/
def prefixed : Nat → Reader Expr
  | 0 => callChain cx inner
  | n + 1 => do
    let start ← position cx
    let zero : Expr := .literal (.of (some ⟨start, start⟩) none) (.double Double.zero)
    if ← accept cx (.operator "+") then
      let e ← prefixed n
      return .binary (← placeFrom cx start) "-" e zero
    else if ← accept cx (.operator "-") then
      let e ← prefixed n
      return .binary (← placeFrom cx start) "-" zero e
    else if ← accept cx (.operator "!") then
      let e ← prefixed n
      return .not (← placeFrom cx start) e
    else callChain cx inner

/-- The operators of the binary levels, the weakest first. -/
def binaryLevels : List (List Text) :=
  [["||"], ["&&"], ["==", "===", "!=", "!=="], ["<", ">", "<=", ">="], ["+", "-"], ["*", "%", "/"]]

def acceptOperator (operators : List Text) : Reader (Option Text) := do
  match ← peek with
  | some (.operator o) =>
    if operators.contains o then
      advance cx
      return some o
    else return none
  | _ => return none

/-- Further operands of a level; operators of a level associate to the left. -/
def operands (operators : List Text) (operand : Reader Expr) (start : Nat) :
    Nat → Expr → Reader Expr
  | 0, left => return left
  | n + 1, left => do
    match ← acceptOperator cx operators with
    | some o =>
      let right ← operand
      operands operators operand start n (.binary (← placeFrom cx start) o left right)
    | none => return left

/-- The given binary levels over prefixed operands. -/
def binary : List (List Text) → Reader Expr
  | [] => do prefixed cx inner (← remaining)
  | operators :: tighter => do
    let start ← position cx
    let left ← binary tighter
    operands cx operators (binary tighter) start (← remaining) left

/-- A condition with its two outcomes, or a bare operation. -/
def conditionalExpr : Reader Expr := do
  let start ← position cx
  let condition ← binary cx inner binaryLevels
  if ← accept cx (.operator "?") then
    let yes ← inner.pipe
    unless ← accept cx (mark ':') do
      let stop ← position cx
      fail cx (.incompleteConditional (cx.input.slice (start - cx.offset) (stop - cx.offset)))
    let no ← inner.pipe
    return .conditional (← placeFrom cx start) condition yes no
  else return condition

/-- The arguments of a pipe, each after a colon. -/
def pipeArguments (expression : Reader Expr) : Nat → Reader (List Expr)
  | 0 => return []
  | n + 1 => do
    if ← accept cx (mark ':') then
      let e ← expression
      return e :: (← pipeArguments expression n)
    else return []

def pipes (expression : Reader Expr) (start : Nat) : Nat → Expr → Reader Expr
  | 0, e => return e
  | n + 1, e => do
    if ← accept cx (.operator "|") then
      if cx.action then fail cx .pipeInAction
      let id ← name cx
      let args ← pipeArguments cx expression (← remaining)
      pipes expression start n (.pipe (← placeFrom cx start) e id args)
    else return e

def piped (expression : Reader Expr) : Reader Expr := do
  let start ← position cx
  let e ← expression
  pipes cx expression start (← remaining) e

/-! ### Nesting -/

/-- The parsers around the given ones. -/
def around : Nested where
  pipe := piped cx (conditionalExpr cx inner)
  conditional := conditionalExpr cx inner

/-- The parsers for expressions of at most the given number of tokens. -/
def Nested.ofDepth : Nat → Nested
  | 0 => ⟨fail cx (.endOfExpression cx.input), fail cx (.endOfExpression cx.input)⟩
  | n + 1 => around cx (Nested.ofDepth n)

/-! ### Chains -/

def semicolons : Nat → Reader Unit
  | 0 => return
  | n + 1 => do
    if ← accept cx (mark ';') then semicolons n

def chainItems : Nat → Reader (List Expr)
  | 0 => return []
  | n + 1 => do
    if (← peek).isNone then return []
    let e ← inner.pipe
    if ← accept cx (mark ';') then
      unless cx.action do fail cx .chained
      semicolons cx (← remaining)
    else if (← peek).isSome then
      fail cx (.trailing (← get).nextText)
    return e :: (← chainItems n)

/-- All tokens as one expression, or as a chain. -/
def chain : Reader Expr := do
  let start ← position cx
  match ← chainItems cx inner (← remaining) with
  | [e] => return e
  | es => return .chain (← placeFrom cx start) es

/-- Reads the expression of a setting. -/
def parse : Except SyntaxError Expr :=
  let tokens := tokenize cx.input
  match tokens.findSome? (fun t => match t.lexeme with | .error m => some m | _ => none) with
  | some m => .error ⟨.lexical m, .unknown, cx.input, cx.location⟩
  | none =>
    if Text.isBlank cx.input then .error ⟨.blank, .unknown, cx.input, cx.location⟩
    else ((chain cx (Nested.ofDepth cx tokens.length)).run ⟨tokens, cx.offset⟩).map (·.1)

end TemplateCompiler.Parser
