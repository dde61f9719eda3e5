/-!
Files as the program meets them: a tree of directories and files in which a path is looked up step by step. The
first step that fails gives the reason.
-/

namespace BasicFrontEnd

/-- Why a path leads to no file, or its file cannot be read. -/
inductive AccessFault
  | notFound
  | notDirectory
  | isDirectory
  | nameTooLong
  | zeroByte
  | system (text : String) (code : Nat)
  deriving DecidableEq

namespace AccessFault

private def withCode (text : String) (code : Nat) : String :=
  text ++ " (os error " ++ toString code ++ ")"

def reason : AccessFault → String
  | notFound         => withCode "No such file or directory" 2
  | notDirectory     => withCode "Not a directory" 20
  | isDirectory      => withCode "Is a directory" 21
  | nameTooLong      => withCode "File name too long" 36
  | zeroByte         => "file name contained an unexpected NUL byte"
  | system text code => withCode text code

end AccessFault

inductive FileTree
  | file (bytes : List UInt8)
  | directory (entries : List (String × FileTree))
  -- Something that is there but cannot be read.
  | barred (fault : AccessFault)

namespace FileTree

-- The greatest size of one name on a path, in bytes.
def maxName : Nat := 255

-- A path has to be shorter than this, in bytes.
def maxPath : Nat := 4096

-- Follows one name from `here`, with the directories above it in `above`, the nearest first.
def step (above : List FileTree) (here : FileTree) (name : String) : Except AccessFault (List FileTree × FileTree) :=
  match here with
  | file _ | barred _ => .error .notDirectory
  | directory entries =>
    if name = "." then .ok (above, here)
    else if name = ".." then
      match above with
      | []              => .ok ([], here)
      | parent :: above => .ok (above, parent)
    else if maxName < name.utf8ByteSize then .error .nameTooLong
    else match entries.lookup name with
      | none       => .error .notFound
      | some child => .ok (here :: above, child)

def follow (above : List FileTree) (here : FileTree) : List String → Except AccessFault FileTree
  | []            => .ok here
  | name :: names => do
    let (above, here) ← step above here name
    follow above here names

-- Cuts a path into names. Neighbouring slashes count as one; a slash at the end asks for a directory.
def namesOf (path : List Char) : List String :=
  let names := ((String.ofList path).splitOn "/").filter (· ≠ "")
  if path.getLast? = some '/' then names ++ ["."] else names

-- What a path leads to. One that does not begin with a slash goes on from the directory with the names in
-- `workDir`.
def find (root : FileTree) (workDir : List String) (path : String) : Except AccessFault FileTree :=
  if '\x00' ∈ path.toList then .error .zeroByte
  else if path = "" then .error .notFound
  else if maxPath ≤ path.utf8ByteSize then .error .nameTooLong
  else
    let names := namesOf path.toList
    follow [] root (if path.toList.head? = some '/' then names else workDir ++ names)

end FileTree
end BasicFrontEnd
