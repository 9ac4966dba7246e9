import Estate.Cc.OutGc
import Estate.Cc.Parser

/-!
# The program `estate_cc`

`estate_cc_main.c`, from what `getopt_long` returns to the exit status. What the program prints
for its user (usage, logs, the dump of the parsed data) is left out.
-/

namespace Estate.Cc

/-- A file name. -/
abbrev Path := List Char

/-- What `getopt_long` returns, with its argument. -/
inductive Opt
  | output (file : Path)
  | gc
  | gi (file : Path)
  | pgfTikz
  | verbose
  | help
  | invalid
  deriving DecidableEq

/-- What the options set. -/
structure Settings where
  output : Option Path := none
  includeFile : Option Path := none
  gc : Bool := false
  gi : Bool := false
  pgfTikz : Bool := false
  verbosity : ℕ := 0
  deriving DecidableEq

inductive ExitStatus | success | failure
  deriving DecidableEq

/-- The loop over the options: it may end the program. -/
def readOptions : Settings → List Opt → Except ExitStatus Settings
  | st, [] => .ok st
  | st, .output file :: opts => readOptions { st with output := some file } opts
  | st, .gc :: opts => readOptions { st with gc := true } opts
  | st, .gi file :: opts => readOptions { st with gi := true, includeFile := some file } opts
  | st, .pgfTikz :: opts => readOptions { st with pgfTikz := true } opts
  | st, .verbose :: opts => readOptions { st with verbosity := st.verbosity + 1 } opts
  | _, .help :: _ => .error .success
  | _, .invalid :: _ => .error .failure

/-- `gc + gi + pgf_tikz`. -/
def Settings.formats (st : Settings) : ℕ := st.gc.toNat + st.gi.toNat + st.pgfTikz.toNat

/-- What surrounds a run of the program. -/
structure CcEnv where
  einaInit : Bool := true
  logInit : Bool := true
  parserNew : Bool := true
  /-- The bytes of a file that can be opened and mapped. -/
  map : Path → Option (List Char)
  /-- Whether a file can be opened for writing. -/
  fopen : Path → Bool := fun _ => true
  ord : HashOrder
  beyond : ℕ → Char := fun _ => '\x00'
  addr : Placement

/-- How a run ends: its exit status, the verdict of `estate_cc_check_states` if it was called, the
machines a generator has worked on, and what has been written where. -/
structure Outcome where
  status : ExitStatus
  verdict : Option Bool := none
  generated : List Fsm := []
  written : List (Option Path × List Char) := []

/-- The text of `estate_cc_out_pgf_tikz`. -/
def outPgfTikz : List Char :=
  ["% Required packages:\n%\\usepackage\x7bpfg\x7d\n%\\usepackage\x7btikz\x7d\n".toList,
    "%\\usetikzlibrary\x7barrows,automata\x7d\n\n".toList,
    "\\begin\x7btikzpicture\x7d[shorten >=1pt,node distance=2cm,>=stealth',thick]\n".toList,
    "\\end\x7btikzpicture\x7d\n".toList].flatten

section Run

variable (env : CcEnv)

/-- A generator writes its text, to a file it has opened or to the standard output. -/
def emit (file : Option Path) (text : List Char) : List (Option Path × List Char) :=
  match file with
  | none => [(none, text)]
  | some path => if env.fopen path then [(file, text)] else []

/-- The generators that the options choose. -/
def generate (st : Settings) (parse : List Fsm) : List (Option Path × List Char) :=
  (if st.gi then emit env st.output (outGi env.ord parse st.includeFile) else []) ++
    ((if st.gc then emit env st.output (outGcApart env.ord env.addr parse) else []) ++
      if st.pgfTikz then emit env st.output outPgfTikz else [])

/-- `main`, behind the parser. -/
def processParse (st : Settings) (parse : List Fsm) : Outcome :=
  let (verdict, parse) := checkStates env.ord env.beyond parse
  { status := .success
    verdict := some verdict
    generated := parse
    written := generate env st parse }

/-- `main`, for what `getopt_long` returns and the operands behind the options. -/
def ccMain (opts : List Opt) (operands : List Path) : Outcome :=
  match readOptions {} opts with
  | .error status => { status := status }
  | .ok st =>
    if st.formats ≠ 1 then { status := .failure }
    else
      match operands with
      | [input] =>
        if !env.einaInit then { status := .failure }
        else if !env.logInit then { status := .failure }
        else if !env.parserNew then { status := .failure }
        else
          match env.map input with
          | none => { status := .failure }
          | some src =>
            match parserParse src with
            | [] => { status := .failure }
            | f :: fsms => processParse env st (f :: fsms)
      | _ => { status := .failure }

/-! ## What a run is to guarantee -/

/-- The initial state is a declared one. -/
def Fsm.InitDeclared (f : Fsm) : Prop := ∃ i, f.init = some i ∧ i ∈ f.states

/-- No two transitions have both ends in common. -/
def Fsm.EndsDistinct (f : Fsm) : Prop :=
  (f.transits.map fun t => (t.fromState, t.toState)).Nodup

/-- Nothing is written and no success is claimed but for machines that the check has accepted. -/
def Outcome.Checked (o : Outcome) : Prop :=
  o.written ≠ [] ∨ o.status = .success →
    o.verdict = some true ∧ ∀ f ∈ o.generated, f.InitDeclared ∧ f.EndsDistinct

end Run

end Estate.Cc
