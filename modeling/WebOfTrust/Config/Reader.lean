import WebOfTrust.Config
import WebOfTrust.Toml.Document

/-!
# Configurations from a text

A configuration is written as a TOML document with the sections `reputation`, `betrayal`, `proof`
and `clock`. A section is a table of named settings, or an array of settings in a fixed order. All
of it may be left out; then the default settings hold. What has another name is not looked at.

* `Settings`: a section; `Settings.number?`, `Settings.count?`, `Settings.mode?`: its settings;
* `Config.read`: the configuration that a text writes, or why it cannot be used;
* `Config.readOrDefault`: the configuration to use, whatever the text.
-/

namespace WebOfTrust

open Toml (Value Entries)

/-! ## Settings -/

/-- A setting as a number. -/
def Toml.Value.number? {α : Type} [Literal α] : Value → Option α
  | .integer n => some (Literal.ofInt n)
  | .float x => some (Literal.ofFloat x)
  | _ => none

/-- A setting as a natural number up to some bound. -/
def Toml.Value.count? (bound : Nat) : Value → Option Nat
  | .integer n => if 0 ≤ n ∧ n ≤ bound then some n.toNat else none
  | _ => none

/-- Whether a value is an array or a table that holds nothing. -/
def Toml.Value.holdsNothing : Value → Bool
  | .array elements => elements.isEmpty
  | .table _ entries => entries.isEmpty
  | _ => false

/-- The source of a clock's time by its name. -/
def Clock.Mode.ofName? (name : String) : Option Clock.Mode :=
  if name = "logical" then some .logical
  else if name = "system" then some .system
  else none

/-- A setting as the source of a clock's time: its name, or a table in which nothing but the name
stands, with an empty value. -/
def Toml.Value.mode? : Value → Option Clock.Mode
  | .string name => Clock.Mode.ofName? name
  | .table _ [(name, v)] => if v.holdsNothing then Clock.Mode.ofName? name else none
  | _ => none

/-- The settings of a section. -/
inductive Settings where
  | named (entries : Entries)
  | listed (values : List Value)

namespace Settings

/-- The settings that a value writes. A date has none. -/
def ofValue? : Value → Option Settings
  | .table _ entries => some (named entries)
  | .array values => some (listed values)
  | .tables before last => some (listed ((before ++ [last]).map (.table .header)))
  | .moment => some (named [])
  | _ => none

/-- The settings of a section of a document, which may be left out. -/
def ofSection? (root : Entries) (name : String) : Option Settings :=
  match root.find? name with
  | none => some (named [])
  | some v => ofValue? v

/-- A setting by its name and its place. -/
def find? (s : Settings) (place : Nat) (name : String) : Option Value :=
  match s with
  | named entries => entries.find? name
  | listed values => values[place]?

/-- A setting read in some way, or the default one if it is left out. -/
def get? {β : Type} (s : Settings) (place : Nat) (name : String) (read? : Value → Option β)
    (default : β) : Option β :=
  match s.find? place name with
  | none => some default
  | some v => read? v

variable {α : Type} [Literal α]

/-- The settings of reputation. -/
def reputation? (s : Settings) (d : ReputationSettings α) : Option (ReputationSettings α) :=
  match s.get? 0 "prior_weight" Value.number? d.priorWeight with
  | some priorWeight => some { priorWeight }
  | none => none

/-- The settings of detection. -/
def betrayal? (s : Settings) (d : BetrayalSettings α) : Option (BetrayalSettings α) :=
  match s.get? 0 "critical_cycle_magnitude" Value.number? d.criticalMagnitude,
    s.get? 1 "min_coverage" Value.number? d.minCoverage,
    s.get? 2 "bp_max_iterations" (Value.count? (UInt64.size - 1)) d.maxRounds,
    s.get? 3 "bp_tolerance" Value.number? d.tolerance with
  | some criticalMagnitude, some minCoverage, some maxRounds, some tolerance =>
    some { criticalMagnitude, minCoverage, maxRounds, tolerance }
  | _, _, _, _ => none

/-- The settings of path proofs. -/
def proof? (s : Settings) (d : ProofSettings) : Option ProofSettings :=
  match s.get? 0 "max_hops" (Value.count? (UInt16.size - 1)) d.maxHops.toNat with
  | some n => some { maxHops := UInt16.ofNat n }
  | none => none

/-- The source of the clock's time. -/
def mode? (s : Settings) (d : Clock.Mode) : Option Clock.Mode := s.get? 0 "mode" Value.mode? d

end Settings

/-! ## Configurations -/

namespace Config

variable {α : Type}

/-- Why a text cannot be used as a configuration. -/
inductive Refusal (α : Type) where
  /-- It is not a document, or a setting is not of its kind. -/
  | unreadable
  | flawed (flaw : Flaw α)

variable [Arith α] [Literal α]

/-- The configuration that a document writes. -/
def ofDocument? (root : Entries) : Option (Config α) :=
  let d : Config α := default
  match Settings.ofSection? root "reputation", Settings.ofSection? root "betrayal",
    Settings.ofSection? root "proof", Settings.ofSection? root "clock" with
  | some r, some b, some p, some c =>
    match r.reputation? d.reputation, b.betrayal? d.betrayal, p.proof? d.proof,
      c.mode? d.clock with
    | some reputation, some betrayal, some proof, some clock =>
      some { reputation, betrayal, proof, clock }
    | _, _, _, _ => none
  | _, _, _, _ => none

/-- The configuration that a text writes. -/
def read (text : String) : Except (Refusal α) (Config α) :=
  match (Toml.read? text).bind ofDocument? with
  | none => .error .unreadable
  | some c =>
    match c.flaw? with
    | some flaw => .error (.flawed flaw)
    | none => .ok c

/-- The configuration of a text; the default one if there is no text or it cannot be used. -/
def readOrDefault (text : Option String) : Config α :=
  match text with
  | none => default
  | some text =>
    match read text with
    | .ok c => c
    | .error _ => default

end Config

end WebOfTrust
