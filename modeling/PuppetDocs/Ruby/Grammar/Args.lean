import PuppetDocs.Ruby.Grammar.Rule

/-
  PuppetDocs.Ruby.Grammar.Args — arguments and parameters.

  Arguments stand in parentheses, or after a blank if their first token can start one. In
  arguments without parentheses a `do` is left to the call they belong to. The pairs at the
  end of an argument list, a block pass aside, become one hash.
-/

namespace PuppetDocs.Ruby

open ParseM

/-! ## Arguments -/

def isEntry (n : Node) : Bool :=
  match n.kind with
  | .pair _ _ | .splat true _ => true
  | _ => false

def isBlockPass (n : Node) : Bool :=
  match n.kind with
  | .blockPass _ => true
  | _ => false

/-- Makes the entries at the end of `args` one hash. -/
def groupEntries (args : List Node) : List Node :=
  let entries := (args.reverse.takeWhile isEntry).reverse
  match entries.head?, entries.getLast? with
  | some first, some last =>
    args.take (args.length - entries.length) ++
      [{ kind := .hash entries, span := first.span.merge last.span, line := first.line }]
  | _, _ => args

def groupPairs (args : List Node) : List Node :=
  match args.getLast? with
  | some last => if isBlockPass last then groupEntries args.dropLast ++ [last] else groupEntries args
  | none => args

/-- The next token starts the arguments of a call without parentheses. -/
def commandArgStarts : P Bool := do
  let t ← peek
  let tight := !(← peekAt 1).spaced
  return t.spaced && match t.kind with
    | .string _ | .command _ | .symbol | .quotedSymbol _ | .number | .constant | .ident | .instanceVar | .classVar
    | .globalVar | .label | .regex | .words _ | .symbolWords _ | .arrow | .lparen => true
    | .keyword k =>
      k == .nilKw || k == .trueKw || k == .falseKw || k == .selfKw || k == .definedKw || k == .defKw
    | .minus | .star | .doubleStar | .amp | .lbracket | .colonColon | .bang => tight
    | _ => false

def readArgs (self : Reader) (closer : TokenKind) : P (List Node) := do
  skipNewlines
  if ← atAny [closer, .eof] then return []
  else
    let a ← self .arg
    skipNewlines
    if ← eat .comma then return a :: (← self (.args closer)) else return [a]

def readMoreArgs (self : Reader) : P (List Node) := do
  if ← eat .comma then
    skipNewlines
    let a ← self .arg
    return a :: (← self .moreArgs)
  else return []

def commandArgs (self : Reader) : P (List Node) := do
  let args ← withoutDo (do
    let a ← self .arg
    return a :: (← self .moreArgs))
  return groupPairs args

def parenArgs (self : Reader) : P (List Node) := do
  let _ ← need .lparen "'('"
  let args ← nested (self (.args .rparen))
  let _ ← need .rparen "')'"
  return groupPairs args

def mkPair (key value : Node) (start : Nat) : P Node := mkNode (.pair key value) start

/-- `key: value`, or a key alone, which stands for the variable of its name. -/
def labelArg (self : Reader) (start : Nat) : P Node := do
  let label ← bump
  let span : Span := ⟨label.span.start, label.span.stop - 1⟩
  let line ← lineOf label.span.start
  let name := keyName label.text
  let key : Node := { kind := .symbol name, span, line }
  skipNewlines
  if ← atAny [.comma, .rparen, .rbrace, .eof] then mkPair key { kind := .ident name, span, line } start
  else mkPair key (← self .negation) start

/-- `"key": value`. -/
def quotedKeyArg (self : Reader) (value : StrLit) (start : Nat) : P Node := do
  let t ← bump
  let _ ← bump
  let key : Node := { kind := .quotedSymbol value, span := t.span, line := ← lineOf t.span.start }
  skipNewlines
  mkPair key (← self .negation) start

def plainArg (self : Reader) (start : Nat) : P Node := do
  let value ← self .negation
  if ← eat .fatArrow then
    skipNewlines
    mkPair value (← self .negation) start
  else return value

def readArg (self : Reader) : P Node := do
  let start ← here
  match ← peekKind with
  | .amp =>
    let _ ← bump
    if ← atAny [.comma, .rparen, .newline] then mkNode (.blockPass none) start
    else
      let value ← self .ternary
      mkNode (.blockPass (some value)) start
  | .label => labelArg self start
  | .string value => if ← colonAt 1 then quotedKeyArg self value start else plainArg self start
  | _ => plainArg self start

/-! ## Parameters -/

/-- The tokens behind a group of `depth` open parentheses, and the end of its last token. -/
def parensEnd : Nat → List (Token TokenKind) → Option (List (Token TokenKind) × Nat)
  | _, [] => none
  | depth, t :: rest =>
    if t.kind = .lparen then parensEnd (depth + 1) rest
    else if t.kind = .rparen then
      match depth with
      | 0 | 1 => some (rest, t.span.stop)
      | depth + 1 => parensEnd depth rest
    else parensEnd depth rest

/-- A parameter in parentheses, kept as it is written. -/
def groupParam (start : Nat) : P String := do
  let _ ← bump
  let s ← get
  match parensEnd 1 s.rest with
  | none => fail (.unexpectedEnd "')'") start
  | some (rest, stop) =>
    set { s with rest, prevEnd := stop }
    return String.ofList ((Span.mk start stop).slice (← read).text)

def sigilParam (kind : ParamKind) : P (String × ParamKind × Option Node) := do
  let _ ← bump
  let name ← if ← at_ .ident then (do return (← bump).text) else pure ""
  return (name, kind, none)

/-- One parameter, or nothing if the next token (which is passed over) cannot start one. -/
def readParam (self : Reader) (closers : List TokenKind) : P (Option (String × ParamKind × Option Node)) := do
  match ← peekKind with
  | .star => some <$> sigilParam .rest
  | .doubleStar => some <$> sigilParam .keywordRest
  | .amp => some <$> sigilParam .block
  | .label =>
    let name := keyName (← bump).text
    if ← atAny (.comma :: .newline :: .semicolon :: closers) then return some (name, .keyword, none)
    else
      let value ← self .unary
      return some (name, .keyword, some value)
  | .ident =>
    let name := (← bump).text
    if ← eat .assign then
      let value ← if closers.contains .rparen then self .ternary else self .unary
      return some (name, .optional, some value)
    else return some (name, .required, none)
  | .lparen =>
    let name ← groupParam (← here)
    return some (name, .required, none)
  | _ =>
    let _ ← bump
    return none

def readParams (self : Reader) (closers : List TokenKind) : P (List (Param Node)) := do
  let multiline := closers.contains .rparen
  if multiline then skipNewlines
  if ← atAny (.eof :: closers) then return []
  else
    let start ← here
    let found ← readParam self closers
    let stop ← prevEnd
    if multiline then skipNewlines
    if !(← eat .comma) then
      let _ ← eat .semicolon
    let rest ← self (.params closers)
    match found with
    | some (name, kind, default?) => return { name, kind, default?, span := ⟨start, stop⟩ } :: rest
    | none => return rest

end PuppetDocs.Ruby
