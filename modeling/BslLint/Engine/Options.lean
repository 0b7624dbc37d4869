import BslLint.Config.Basic

/-!
# Options of a batch

What a batch is started with. A configuration can switch things on that the options leave off, but
not the other way round, and the number of workers in the options counts more than the one in the
configuration, where nought means that none is given.
-/

namespace BslLint

/-- What a batch is started with. -/
structure Options where
  /-- The directory of the project. -/
  workspace : String := "."
  /-- The directory of the sources, as seen from the directory of the project. -/
  source : String := "."
  /-- The number of files that are worked on at the same time. -/
  workers : Option Nat := none
  /-- Whether the first file that fails ends the batch. -/
  failFast : Bool := false
  /-- Whether templates are analyzed too. -/
  templates : Bool := false
  /-- Whether findings are grouped by blocks. -/
  fingerprint : Bool := false
  deriving DecidableEq, Repr, Inhabited

/-- The options together with what a configuration says. -/
def Options.withConfig (o : Options) (c : Config) : Options :=
  { o with
    workers := o.workers.or (c.settings.threads.filter (0 < ·))
    failFast := o.failFast || c.settings.failFast
    templates := o.templates || c.settings.templates
    fingerprint := o.fingerprint || c.fingerprint.enabled }

/-- The extensions of the files that are analyzed. -/
def Options.extensions (o : Options) (c : Config) : List String :=
  let given := c.settings.extensions
  if o.templates && !given.any (Text.lowerAscii · == "txt") then given ++ ["txt"] else given

end BslLint
