import Os161.Thread.Model.ThreadSys
/-!
# The process list

The list that hangs off `phead` in `kern/thread/thread.c`, without its dummy
head: one node for each pid, in the order of creation. `parentpid` and
`waited` are left out; nothing that decides anything reads them.
-/

namespace Os161

namespace Thread

/-- The fields of `struct pnode` that the functions below read. -/
structure PNode where
  pid : Int32
  exited : Int32
  excode : Int32
  deriving DecidableEq, Repr

/-- The search that every function on the list starts with. -/
def findPnode (plist : List PNode) (pid : Int32) : Option PNode :=
  plist.find? fun node => node.pid == pid

/-- `get_exited`: `-1` for a pid that is not in the list. -/
def getExited (plist : List PNode) (pid : Int32) : Int32 :=
  ((findPnode plist pid).map PNode.exited).getD (-1)

/-- `get_excode`. -/
def getExcode (plist : List PNode) (pid : Int32) : Int32 :=
  ((findPnode plist pid).map PNode.excode).getD (-1)

/-- `delete_from_plist`: the first node with this pid goes. -/
def deleteFromPlist (plist : List PNode) (pid : Int32) : List PNode :=
  plist.eraseP fun node => node.pid == pid

/-! ## The nodes with their threads -/

/-- A node with the `thread` it was made for. -/
structure ThreadNode extends PNode where
  thread : Tid
  deriving DecidableEq, Repr

namespace Plist

/-- What the functions above see of the list. -/
def nodes (plist : List ThreadNode) : List PNode := plist.map ThreadNode.toPNode

/-- The search, for those that go on to use the thread or to change the node. -/
def find (plist : List ThreadNode) (pid : Int32) : Option ThreadNode :=
  plist.find? fun node => node.pid == pid

/-- `find_thread_by_pid`. -/
def findThreadByPid (plist : List ThreadNode) (pid : Int32) : Option Tid :=
  (find plist pid).map ThreadNode.thread

/-- `insert_to_plist`. -/
def insertToPlist (plist : List ThreadNode) (thread : Tid) (pid : Int32) : List ThreadNode :=
  plist ++ [{ pid := pid, exited := 0, excode := -1, thread := thread }]

/-- The assignments that follow the search, made to the first node with this
pid. -/
def assign (f : PNode → PNode) (pid : Int32) : List ThreadNode → List ThreadNode
  | [] => []
  | node :: rest =>
    if node.pid == pid then ⟨f node.toPNode, node.thread⟩ :: rest
    else node :: assign f pid rest

/-- `set_excode`, which marks the node as exited too. -/
def setExcode (plist : List ThreadNode) (pid exitcode : Int32) : List ThreadNode :=
  assign (fun node => { node with excode := exitcode, exited := 1 }) pid plist

/-- `set_exited`. -/
def setExited (plist : List ThreadNode) (pid : Int32) : List ThreadNode :=
  assign (fun node => { node with exited := 1 }) pid plist

/-- `delete_from_plist`. -/
def delete (plist : List ThreadNode) (pid : Int32) : List ThreadNode :=
  plist.eraseP fun node => node.pid == pid

end Plist

end Thread

end Os161
