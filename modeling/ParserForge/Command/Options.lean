import ParserForge.Table.Generate

/-!
The options of the command line.
-/

namespace ParserForge.Command

/-- An intermediate result that can be printed. -/
inductive Dump where
  | grammar
  | firstFollow
  | automaton
  | table
deriving DecidableEq, Repr

def Dump.ofName? : String → Option Dump
  | "grammar" => some .grammar
  | "first-follow" => some .firstFollow
  | "automaton" => some .automaton
  | "table" => some .table
  | _ => none

def methodNamed? : String → Option Method
  | "slr1" => some .slr1
  | "lr1" => some .lr1
  | _ => none

/-- What the command is asked to do with the grammar file at `path`. -/
structure Options where
  method : Method
  dumps : List Dump
  input : Option String
  path : String
deriving DecidableEq, Repr

/-- The options read so far; each of `method`, `input` and `path` may be given once. -/
structure Given where
  method : Option Method
  dumps : List Dump
  input : Option String
  path : Option String
deriving DecidableEq, Repr

namespace Given

def empty : Given := ⟨none, [], none, none⟩

/-- Takes a named option. -/
def set? (g : Given) (name value : String) : Option Given :=
  match name, g.method, g.input with
  | "--method", none, _ => (methodNamed? value).map fun m => { g with method := some m }
  | "--dump", _, _ => (Dump.ofName? value).map fun d => { g with dumps := g.dumps ++ [d] }
  | "--input", _, none => some { g with input := some value }
  | _, _, _ => none

/-- Takes the path. -/
def setPath? (g : Given) (path : String) : Option Given :=
  match g.path with
  | none => some { g with path := some path }
  | some _ => none

/-- The options, if a path was given.  LR(1) is the method unless another one was asked for. -/
def finish? (g : Given) : Option Options :=
  g.path.map fun path => ⟨g.method.getD .lr1, g.dumps, g.input, path⟩

end Given

/-- Whether an argument looks like the name of an option. -/
def isFlag (argument : String) : Bool :=
  match argument.toList with
  | '-' :: _ :: _ => true
  | _ => false

/-- Cuts `--name=value` into its name and its value. -/
def cut (argument : String) : Option (String × String) :=
  let chars := argument.toList
  if chars.contains '=' then
    some (String.ofList (chars.takeWhile (· ≠ '=')),
      String.ofList ((chars.dropWhile (· ≠ '=')).drop 1))
  else none

/-- Reads arguments after those that gave `g`.  The value of an option follows its name, either
behind an equals sign or as the next argument. -/
def readFrom (g : Given) : List String → Option Given
  | [] => some g
  | [argument] =>
      if isFlag argument then (cut argument).bind fun (name, value) => g.set? name value
      else g.setPath? argument
  | argument :: next :: rest =>
      if isFlag argument then
        match cut argument with
        | some (name, value) => (g.set? name value).bind fun g => readFrom g (next :: rest)
        | none =>
            if isFlag next then none
            else (g.set? argument next).bind fun g => readFrom g rest
      else (g.setPath? argument).bind fun g => readFrom g (next :: rest)

/-- The options that the arguments ask for. -/
def Options.parse? (arguments : List String) : Option Options :=
  (readFrom .empty arguments).bind Given.finish?

end ParserForge.Command
