import Trellis.Files.Tree

/-!
# Changes of files

What has to be done to turn one file tree into another: what is gone is removed, from the inside out, and
what is new or different is made, from the outside in.
-/

namespace Trellis

inductive FileChange where
  | removeFile (place : Location)
  | removeDirectory (place : Location)
  | makeDirectory (place : Location)
  | writeFile (place : Location) (content : ByteArray)

namespace FileNode

def sameKind : FileNode → FileNode → Bool
  | .directory, .directory => true
  | .file _, .file _ => true
  | _, _ => false

def making (place : Location) : FileNode → FileChange
  | .directory => .makeDirectory place
  | .file content => .writeFile place content

def removing (place : Location) : FileNode → FileChange
  | .directory => .removeDirectory place
  | .file _ => .removeFile place

/-- Are two nodes the same directory or files of the same content? -/
def sameContent : FileNode → FileNode → Bool
  | .directory, .directory => true
  | .file a, .file b => a.data == b.data
  | _, _ => false

end FileNode

namespace FileTree

/-- Does a tree have a node at a place that stands in a relation to a given one? -/
def hasLike (t : FileTree) (alike : FileNode → FileNode → Bool) (entry : Location × FileNode) : Bool :=
  match t.node? entry.1 with
  | some node => alike entry.2 node
  | none => false

def changes (before after : FileTree) : List FileChange :=
  let gone := before.nodes.filter fun entry => !after.hasLike FileNode.sameKind entry
  let made := after.nodes.filter fun entry => !before.hasLike FileNode.sameContent entry
  gone.reverse.map (fun entry => entry.2.removing entry.1) ++
    made.map fun entry => entry.2.making entry.1

end FileTree

end Trellis
