import GrammarInduction.Chart.Pool
import GrammarInduction.Grammar.Limits
import GrammarInduction.Insertion.Strategy

/-!
# Coverage operators

Coverage makes up a rule where a table has a gap.  There are five operators: three for a single
terminal, whose rule gets a random parent, the universal symbol or the starting symbol, and two for
a split, whose rule gets a random parent or the starting symbol.  Each fires with its own chance and
submits its rule with its own hint.

* `Coverage.cover` — the rule that an operator makes up, with the detector that it fits.
-/

namespace GrammarInduction

/-- The coverage operators. -/
inductive CoverageKind where
  | terminal
  | universal
  | starting
  | aggressive
  | full
deriving DecidableEq, Repr

/-- The operators in their order. -/
def CoverageKind.all : List CoverageKind := [.terminal, .universal, .starting, .aggressive, .full]

/-- The name of an operator. -/
def CoverageKind.name : CoverageKind → String
  | terminal => "terminal"
  | universal => "universal"
  | starting => "starting"
  | aggressive => "aggressive"
  | full => "full"

/-- How often an operator fires and what its rules want of the size of the grammar. -/
structure CoverageSetting (α : Type) where
  chance : α
  hint : Hint
deriving Repr

/-- The settings of all coverage operators. -/
structure Coverage (α : Type) where
  terminal : CoverageSetting α
  universal : CoverageSetting α
  starting : CoverageSetting α
  aggressive : CoverageSetting α
  full : CoverageSetting α
deriving Repr

/-- Where a table has a gap: at a terminal, or in a cell of which some splits may be covered. -/
inductive CoverageSite where
  | leaf (col : Nat) (terminal : Symbol)
  | splits (detectors : List Detector)
deriving DecidableEq, Repr

/-- What is wrong with coverage settings: a chance outside the unit interval. -/
structure Coverage.Flaw where
  kind : CoverageKind
deriving DecidableEq, Repr

/-- The wording of a flaw. -/
def Coverage.Flaw.message (f : Coverage.Flaw) : String :=
  f.kind.name ++ " coverage chance must lie in [0, 1]"

namespace CoverageSetting

variable {α : Type} [Scalar α]

/-- The chance moved into the unit interval. -/
def clamped (s : CoverageSetting α) : CoverageSetting α :=
  { s with chance := Scalar.clampUnit s.chance }

/-- An operator that lets the grammar grow whenever it can fire. -/
def always : CoverageSetting α := ⟨1, .expand⟩

/-- An operator that never fires. -/
def never : CoverageSetting α := ⟨0, .expand⟩

end CoverageSetting

namespace Coverage

variable {α : Type} [Scalar α]

/-- The setting of an operator. -/
def get (c : Coverage α) : CoverageKind → CoverageSetting α
  | .terminal => c.terminal
  | .universal => c.universal
  | .starting => c.starting
  | .aggressive => c.aggressive
  | .full => c.full

/-- Every operator but the universal one fires whenever it can. -/
def standard : Coverage α := ⟨.always, .never, .always, .always, .always⟩

/-- No operator ever fires. -/
def disabled : Coverage α := ⟨.never, .never, .never, .never, .never⟩

/-- The first operator whose chance lies outside the unit interval. -/
def flaw? (c : Coverage α) : Option Flaw :=
  (CoverageKind.all.find? fun k => decide (¬ Scalar.InUnit (c.get k).chance)).map Flaw.mk

/-- Whether an operator can make up a rule for a site. -/
def suits : CoverageKind → CoverageSite → Bool
  | .terminal, .leaf .. => true
  | .universal, .leaf .. => true
  | .starting, .leaf .. => true
  | .aggressive, .splits _ => true
  | .full, .splits _ => true
  | _, _ => false

/-- The parent that an operator gives to the rule of a terminal. -/
def leafParent (limits : Limits) : CoverageKind → Attempt Generator Symbol
  | .terminal => limits.randomSymbol
  | .universal =>
    match limits.universal? with
    | some u => pure u
    | none => throw .noUniversalSymbol
  | _ => pure limits.start

/-- The parent that an operator gives to the rule of a split. -/
def splitParent (limits : Limits) : CoverageKind → Draw Symbol
  | .full => pure limits.start
  | _ => limits.randomSymbol

/-- The rule that an operator makes up once it fires, with the detector that it fits. -/
def invent (limits : Limits) (kind : CoverageKind) :
    CoverageSite → Attempt Generator (Option (Rule × Detector))
  | .leaf col terminal => do
    let parent ← leafParent limits kind
    pure (some (.terminal parent terminal, .leaf col terminal))
  | .splits detectors => do
    match ← (Draw.choose detectors : Draw _) with
    | some (.split row col shift left right) => do
      let parent ← (splitParent limits kind : Draw Symbol)
      pure (some (.pair parent left right, .split row col shift left right))
    | _ => pure none

/-- The rule that an operator makes up for a site: none if the site does not suit it, its chance does
not come up, or there is no split to cover. -/
def cover (limits : Limits) (kind : CoverageKind) (setting : CoverageSetting α)
    (site : CoverageSite) : Attempt Generator (Option (Rule × Detector)) :=
  if suits kind site then do
    let fires ← Draw.chance setting.chance
    if fires then invent limits kind site else pure none
  else pure none

end Coverage

end GrammarInduction
