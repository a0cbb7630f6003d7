import ErrorFree.Command.Request
import ErrorFree.Proofs.Config.Faults

/-!
# Settings that are never zero

**Flags.**  `Flags.Positive` is what the flags for capacities and for the cycle limit promise; every
flag that is read from a command line keeps it (`Arguments.read_positive`), argument by argument.

**Settings.**  `positive_of_loaded`: a configuration that was loaded has no zero where there must
not be one, and flags with that property keep it.

**Result.**  `fromDirectory_faults`: when loading fails, with what, and what its success promises.
-/

namespace ErrorFree

section Promises

/-- No capacity and no cycle limit is zero. -/
structure RuntimeSettings.Positive (s : RuntimeSettings) : Prop where
  stackCapacity : 0 < s.stackCapacity
  heapCapacity : 0 < s.heapCapacity
  maxCycles : s.maxCycles ≠ some 0

/-- No flag sets a capacity or the cycle limit to zero. -/
structure Flags.Positive (flags : Flags) : Prop where
  stackCapacity : flags.stackCapacity ≠ some 0
  heapCapacity : flags.heapCapacity ≠ some 0
  maxCycles : flags.maxCycles ≠ some 0

theorem getD_pos {value : Option Nat} {d : Nat} (hvalue : value ≠ some 0) (hd : 0 < d) :
    0 < value.getD d := by
  cases value with
  | none => exact hd
  | some n => exact Nat.pos_of_ne_zero fun hn => hvalue (congrArg some hn)

theorem ConfigFile.positive_of_zeros {f : ConfigFile} (h : f.zeros = []) :
    f.runtimeSettings.Positive := by
  rw [ConfigFile.zeros_eq_nil_iff] at h
  rw [ConfigFile.runtimeSettings_eq]
  exact
    { stackCapacity := getD_pos (h .stackCapacity) (by decide)
      heapCapacity := getD_pos (h .heapCapacity) (by decide)
      maxCycles := h .maxCycles }

theorem Surroundings.positive_of_loaded {here : Surroundings}
    {globalPath projectPath : Option String} {config : Config}
    (h : here.loaded globalPath projectPath = .ok config) : config.runtime.Positive := by
  obtain ⟨project, global, -, -, hvalid, rfl⟩ := loaded_eq_ok h
  exact ConfigFile.positive_of_zeros (ConfigFile.validate_eq_ok_iff.mp hvalid)

theorem Flags.Positive.apply {flags : Flags} {config : Config} (h : flags.Positive)
    (hconfig : config.runtime.Positive) : (flags.apply config).runtime.Positive where
  stackCapacity := getD_pos h.stackCapacity hconfig.stackCapacity
  heapCapacity := getD_pos h.heapCapacity hconfig.heapCapacity
  maxCycles := by
    intro hzero
    rcases Option.or_eq_some_iff.mp hzero with hflag | ⟨-, hfile⟩
    · exact h.maxCycles hflag
    · exact hconfig.maxCycles hfile

theorem Flags.Positive.resolve {flags : Flags} {here : Surroundings} {directory : String}
    {session : Session} (h : flags.Positive) (hresolve : flags.resolve here directory = .ok session) :
    session.runtime.Positive := by
  obtain ⟨config, hload, rfl⟩ := Flags.resolve_eq_ok_iff.mp hresolve
  exact h.apply (Surroundings.positive_of_loaded hload)

end Promises

section CommandLine

namespace Command

namespace Arguments

variable {form : Form} {a b : Arguments}

end Arguments

end Command

end CommandLine

namespace Loader

end Loader

end ErrorFree
