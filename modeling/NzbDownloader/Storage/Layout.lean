import NzbDownloader.Queue.Job

/-!
# Where the files of a job live

The paths of `download/download.c` and the sanitising of `storage/paths.c`.
Directories are given by the path they resolve to, so that two spellings of one
directory are equal; a blank setting is `none`.
-/

namespace NzbDownloader.Storage

open Util Queue

abbrev Path := List Name

structure StorageConfig where
  tempDir : Path
  outputDir : Option Path
  deriving DecidableEq, Repr

structure JobRecord extends Job where
  id : Name
  name : Name
  outputDir : Option Path
  deriving DecidableEq, Repr

def pathSanitizeComponent (name : Name) : Name :=
  let flat := name.map fun c => if c = '/' ∨ c = '\\' then '_' else c
  if flat = [] ∨ flat = ['.'] ∨ flat = ['.', '.'] then "unnamed".toList else flat

def jobTempDir (config : StorageConfig) (job : JobRecord) : Path :=
  config.tempDir ++ [job.id]

def jobFilePath (config : StorageConfig) (job : JobRecord) (file : JobFile) : Path :=
  jobTempDir config job ++ [pathSanitizeComponent file.filename]

def jobOutputSubdir (job : JobRecord) : Name :=
  pathSanitizeComponent
    (if job.name.length > 4 ∧ hasSuffixCi job.name ".nzb".toList then job.name.rdrop 4
    else job.name)

def jobOutputDestDir (config : StorageConfig) (job : JobRecord) : Option Path :=
  (job.outputDir <|> config.outputDir).map (· ++ [jobOutputSubdir job])

end NzbDownloader.Storage
