import FuncScript.Service.Router

/-!
The words of the command line. There are two commands, each with flags of its own; two flags belong
to both and may stand before the command's name, after it, or on both sides of it. On one side a
flag stands only once; given on both, the one behind the name counts. A flag's value follows it as
the next word or behind an equals sign.
-/

namespace FuncScript.Command

inductive OutputFormat where
  | text
  | json
  deriving DecidableEq, Repr

structure Shared where
  output : Option OutputFormat := none
  quiet : Bool := false
  deriving DecidableEq, Repr

def Shared.followedBy (before behind : Shared) : Shared where
  output := behind.output <|> before.output
  quiet := before.quiet || behind.quiet

structure ParseFlags where
  file : Option String := none
  startRule : Option String := none
  deriving DecidableEq, Repr

structure ServeFlags where
  port : Option Nat := none
  maxSourceSize : Option Nat := none
  timeoutMs : Option Nat := none
  deriving DecidableEq, Repr

inductive Invocation where
  | parse (shared : Shared) (flags : ParseFlags)
  | serve (shared : Shared) (flags : ServeFlags)
  | version
  | help
  | usageError
  deriving DecidableEq, Repr

inductive Word where
  | long (name : String) (value : Option String)
  | short (letter : Char)
  | separator
  | operand (text : String)
  deriving DecidableEq, Repr

namespace Word

def ofString (s : String) : Word :=
  match s.toList with
  | ['-', '-'] => .separator
  | '-' :: '-' :: rest =>
    let name := String.ofList (rest.takeWhile (· ≠ '='))
    match rest.dropWhile (· ≠ '=') with
    | [] => .long name none
    | _ :: value => .long name (some (String.ofList value))
  | ['-'] => .operand s
  | '-' :: letter :: _ => .short letter
  | _ => .operand s

end Word

def unsigned? (s : String) : Option Nat :=
  let digits :=
    match s.toList with
    | '+' :: rest => rest
    | cs => cs
  if digits.isEmpty || !digits.all Char.isDigit then none
  else some (Nat.ofDigitChars 10 digits 0)

def word64? (s : String) : Option Nat := (unsigned? s).filter fun n => decide (n < UInt64.size)

/-- A port may be given with a sign; of the negative numbers only zero is one. -/
def port? (s : String) : Option Nat :=
  match s.toList with
  | '-' :: rest =>
    if rest.isEmpty || !rest.all (· == '0') then none else some 0
  | _ => (unsigned? s).filter fun n => decide (n < 65536)

def outputFormat? : String → Option OutputFormat
  | "text" => some .text
  | "json" => some .json
  | _ => none

/-- The value of a flag, with the words after it. A word that is itself a flag is no value. -/
def valueOf : Option String → List String → Option (String × List String)
  | some value, rest => some (value, rest)
  | none, [] => none
  | none, word :: rest =>
    match Word.ofString word with
    | .operand _ => some (word, rest)
    | _ => none

/-- Sets what may be set only once on one side of the command's name. -/
def once {α : Type} (current : Option α) (value : Option α) : Option (Option α) :=
  match current, value with
  | none, some v => some (some v)
  | _, _ => none

inductive Step (α : Type) where
  | go (flags : α) (rest : List String)
  | stop (result : Invocation)

def Shared.step {α : Type} (shared : Shared) (wrap : Shared → α) (name : String)
    (value : Option String) (rest : List String) (other : Step α) : Step α :=
  match name with
  | "output" =>
    match valueOf value rest with
    | some (text, rest) =>
      match once shared.output (outputFormat? text) with
      | some output => .go (wrap { shared with output }) rest
      | none => .stop .usageError
    | none => .stop .usageError
  | "quiet" =>
    match value, shared.quiet with
    | none, false => .go (wrap { shared with quiet := true }) rest
    | _, _ => .stop .usageError
  | "help" => .stop (if value.isNone then .help else .usageError)
  | _ => other

def valued {α β : Type} (current : Option β) (read : String → Option β) (wrap : Option β → α)
    (value : Option String) (rest : List String) : Step α :=
  match valueOf value rest with
  | some (text, rest) =>
    match once current (read text) with
    | some b => .go (wrap b) rest
    | none => .stop .usageError
  | none => .stop .usageError

def parseOperand (state : Shared × ParseFlags) (text : String) (rest : List String) :
    Step (Shared × ParseFlags) :=
  match once state.2.file (if text.isEmpty then none else some text) with
  | some file => .go (state.1, { state.2 with file }) rest
  | none => .stop .usageError

def parseStep (state : Shared × ParseFlags) (word : String) (rest : List String) :
    Step (Shared × ParseFlags) :=
  match Word.ofString word with
  | .long name value =>
    state.1.step (fun shared => (shared, state.2)) name value rest <|
      match name with
      | "start-rule" =>
        valued state.2.startRule some
          (fun startRule => (state.1, { state.2 with startRule })) value rest
      | _ => .stop .usageError
  | .short 'h' => .stop .help
  | .operand text => parseOperand state text rest
  | _ => .stop .usageError

def parseOperands (state : Shared × ParseFlags) : List String → Invocation
  | [] => .parse state.1 state.2
  | word :: rest =>
    match parseOperand state word rest with
    | .go state _ => parseOperands state rest
    | .stop result => result

def serveStep (state : Shared × ServeFlags) (word : String) (rest : List String) :
    Step (Shared × ServeFlags) :=
  match Word.ofString word with
  | .long name value =>
    state.1.step (fun shared => (shared, state.2)) name value rest <|
      match name with
      | "port" =>
        valued state.2.port port? (fun port => (state.1, { state.2 with port })) value rest
      | "max-source-size" =>
        valued state.2.maxSourceSize word64?
          (fun maxSourceSize => (state.1, { state.2 with maxSourceSize })) value rest
      | "timeout-ms" =>
        valued state.2.timeoutMs word64?
          (fun timeoutMs => (state.1, { state.2 with timeoutMs })) value rest
      | _ => .stop .usageError
  | .short 'h' => .stop .help
  | _ => .stop .usageError

/-- Takes steps over the words, of which there are no more than `bound`. -/
def walk {α : Type} (step : α → String → List String → Step α)
    (separated : α → List String → Invocation) (finish : α → Invocation) :
    Nat → α → List String → Invocation
  | _, state, [] => finish state
  | 0, _, _ => .usageError
  | bound + 1, state, word :: rest =>
    if word = "--" then separated state rest
    else
      match step state word rest with
      | .go state rest => walk step separated finish bound state rest
      | .stop result => result

def Invocation.after (before : Shared) : Invocation → Invocation
  | .parse behind flags => .parse (before.followedBy behind) flags
  | .serve behind flags => .serve (before.followedBy behind) flags
  | other => other

def parseCommand (words : List String) : Invocation :=
  walk parseStep parseOperands (fun state => .parse state.1 state.2) words.length ({}, {}) words

def serveCommand (words : List String) : Invocation :=
  walk serveStep
    (fun state rest => if rest.isEmpty then .serve state.1 state.2 else .usageError)
    (fun state => .serve state.1 state.2) words.length ({}, {}) words

def helpCommand : List String → Invocation
  | [] => .help
  | [word] => if word ∈ ["parse", "serve", "help"] then .help else .usageError
  | _ => .usageError

def rootStep (shared : Shared) (word : String) (rest : List String) : Step Shared :=
  match Word.ofString word with
  | .long name value =>
    shared.step id name value rest <|
      match name, value with
      | "version", none => .stop .version
      | _, _ => .stop .usageError
  | .short 'V' => .stop .version
  | .short 'h' => .stop .help
  | .operand "parse" => .stop ((parseCommand rest).after shared)
  | .operand "serve" => .stop ((serveCommand rest).after shared)
  | .operand "help" => .stop (helpCommand rest)
  | _ => .stop .usageError

def Invocation.ofWords (words : List String) : Invocation :=
  walk rootStep (fun _ _ => .usageError) (fun _ => .usageError) words.length {} words

end FuncScript.Command
