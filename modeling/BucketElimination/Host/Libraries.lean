import BucketElimination.Host.Arguments
import BucketElimination.Host.Settings
set_option autoImplicit false

/-!
# Host: the libraries of the executable

What the executable passes to a run where the run leaves the choice.  The variable for the logger may
name one level, in upper or lower case, and records up to it are shown; any other value is as none.
Resolvents are merged in the order in which their buckets are listed.

Whatever a run is asked for, the counts that it is configured with fit a 64-bit word, as they are
read with that bound.
-/

namespace BucketElimination.Host

/-- The level with a name, where `off` names none. -/
def limitOfName? (s : String) : Option (Option Level) :=
  match s.map Char.toLower with
  | "off" => some none
  | "error" => some (some .error)
  | "warn" => some (some .warn)
  | "info" => some (some .info)
  | "debug" => some (some .debug)
  | "trace" => some (some .trace)
  | _ => none

/-- The logger of the executable. -/
def logger : Cli.Logger where
  shows limit value? r :=
    match value?.bind limitOfName? with
    | some named => named.any fun limit => r.level.shownUpTo limit
    | none => r.level.shownUpTo limit
  shows_unset _ _ := rfl

/-- The libraries of the executable. -/
def libraries : Cli.Libraries where
  matchArgs := matchArgs
  refuseCount text := s!"The argument '{text}' is no count of workers"
  readSettings := Settings.read
  logger := logger
  shuffler := .asListed

/-! ## What a run is configured with -/

theorem fits_foldlM_read {texts : List String} {u u' : Update} (h : Settings.Fits u)
    (hfold : texts.foldlM
      (fun u text => do return u.merge (← libraries.readSettings text)) u = .ok u') :
    Settings.Fits u' := by
  induction texts generalizing u with
  | nil =>
    cases hfold
    exact h
  | cons text texts ih =>
    rw [List.foldlM_cons] at hfold
    obtain ⟨u₁, hmerge, hrest⟩ := exists_of_bind_eq_ok hfold
    obtain ⟨later, hread, hlater⟩ := exists_of_bind_eq_ok hmerge
    cases hlater
    exact ih (h.merge (Settings.fits_of_read hread)) hrest

/-- Whatever files and arguments ask for, the counts that a run of the executable is configured with
fit a 64-bit word. -/
theorem fits_of_update {env : Cli.Environment} {m : Cli.Matches} {u : Update}
    (hlibraries : env.libraries = libraries) (h : Cli.update env m = .ok u) : Settings.Fits u := by
  unfold Cli.update at h
  rw [hlibraries] at h
  obtain ⟨file, -, h⟩ := exists_of_bind_eq_ok h
  obtain ⟨u', hfold, h⟩ := exists_of_bind_eq_ok h
  have hfits := fits_foldlM_read Settings.fits_empty hfold
  split at h
  · cases h
    exact hfits
  · split at h
    · cases h
    · rename_i n hcount
      cases h
      refine ⟨fun k hk => ?_, hfits.chunkCapacity_lt⟩
      cases hk
      exact Decimal.lt_of_count? hcount

end BucketElimination.Host
