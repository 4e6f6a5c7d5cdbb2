import Os161.Thread.Model.Plist
/-!
# The process list as a map

Every function on the process list goes by the first node with a pid, so the
list is a finite map from pids to nodes as far as they can tell (`Plist.find`).
With no pid in it twice, `delete_from_plist` removes the pid from the map.
-/

namespace Os161

namespace Thread

namespace Plist

variable {plist : List ThreadNode} {pid pid' code : Int32} {node : ThreadNode}

theorem pid_of_find (h : find plist pid = some node) : node.pid = pid := by
  have := List.find?_some h
  exact beq_iff_eq.1 this

variable (plist pid)

theorem findPnode_nodes :
    findPnode (nodes plist) pid = (find plist pid).map ThreadNode.toPNode := by
  unfold findPnode nodes find
  rw [List.find?_map]
  rfl

/-! ## Reading -/

theorem getExited_nodes :
    getExited (nodes plist) pid = ((find plist pid).map fun node => node.exited).getD (-1) := by
  rw [getExited, findPnode_nodes, Option.map_map]
  rfl

theorem getExcode_nodes :
    getExcode (nodes plist) pid = ((find plist pid).map fun node => node.excode).getD (-1) := by
  rw [getExcode, findPnode_nodes, Option.map_map]
  rfl

/-! ## Writing -/

/-- An assignment that leaves the pid alone changes one entry of the map. -/
theorem find_assign {f : PNode → PNode} (hf : ∀ node, (f node).pid = node.pid)
    (plist : List ThreadNode) (pid pid' : Int32) :
    find (assign f pid plist) pid' =
      if pid' = pid then
        (find plist pid').map fun node => ⟨f node.toPNode, node.thread⟩
      else find plist pid' := by
  induction plist with
  | nil => simp [assign, find]
  | cons node rest ih =>
    unfold find at ih ⊢
    rw [assign]
    by_cases hnode : node.pid = pid
    · by_cases hpid : pid' = pid
      · simp [hnode, hpid, hf]
      · simp [hnode, hpid, hf, Ne.symm hpid]
    · rw [if_neg (by simpa using hnode), List.find?_cons, List.find?_cons, ih]
      by_cases hpid' : node.pid = pid'
      · have hne : pid' ≠ pid := fun h => hnode (hpid'.trans h)
        simp [hpid', hne]
      · simp [beq_eq_false_iff_ne.2 hpid']

theorem find_setExcode (pid code pid' : Int32) :
    find (setExcode plist pid code) pid' =
      if pid' = pid then (find plist pid').map fun node => ⟨⟨node.pid, 1, code⟩, node.thread⟩
      else find plist pid' :=
  find_assign (f := fun node => ⟨node.pid, 1, code⟩) (fun _ => rfl) plist pid pid'

theorem find_setExited (pid pid' : Int32) :
    find (setExited plist pid) pid' =
      if pid' = pid then (find plist pid').map fun node => ⟨⟨node.pid, 1, node.excode⟩, node.thread⟩
      else find plist pid' :=
  find_assign (f := fun node => ⟨node.pid, 1, node.excode⟩) (fun _ => rfl) plist pid pid'

theorem find_insertToPlist (t : Tid) (pid pid' : Int32) :
    find (insertToPlist plist t pid) pid' =
      (find plist pid').or (if pid = pid' then
        some { pid := pid, exited := 0, excode := -1, thread := t } else none) := by
  unfold find insertToPlist
  by_cases h : pid = pid' <;> simp [h]

/-- The pids in the list. -/
def pids (plist : List ThreadNode) : List Int32 := plist.map fun node => node.pid

variable {plist pid}

theorem find_isSome_iff : (find plist pid).isSome ↔ pid ∈ pids plist := by
  simp [find, pids]

theorem find_eq_none_iff : find plist pid = none ↔ pid ∉ pids plist := by
  rw [← find_isSome_iff, Option.not_isSome_iff_eq_none]

theorem find_delete_of_ne (plist : List ThreadNode) (h : pid' ≠ pid) :
    find (delete plist pid) pid' = find plist pid' := by
  induction plist with
  | nil => rfl
  | cons node rest ih =>
    unfold find delete at ih ⊢
    rw [List.eraseP_cons]
    by_cases hnode : node.pid = pid
    · simp [hnode, Ne.symm h]
    · simp only [beq_eq_false_iff_ne.2 hnode, cond_false, List.find?_cons, ih]

theorem pids_delete (plist : List ThreadNode) (pid : Int32) :
    pids (delete plist pid) = (pids plist).erase pid := by
  unfold pids delete
  induction plist with
  | nil => rfl
  | cons node rest ih =>
    by_cases h : node.pid = pid
    · simp [h]
    · simp [beq_eq_false_iff_ne.2 h, ih]

theorem find_delete_self (hnodup : (pids plist).Nodup) : find (delete plist pid) pid = none := by
  rw [find_eq_none_iff, pids_delete]
  exact hnodup.not_mem_erase

theorem pids_assign {f : PNode → PNode} (hf : ∀ node, (f node).pid = node.pid)
    (plist : List ThreadNode) (pid : Int32) : pids (assign f pid plist) = pids plist := by
  unfold pids
  induction plist with
  | nil => rfl
  | cons node rest ih =>
    rw [assign]
    split
    · simp [hf]
    · simp [ih]

variable (plist)

theorem pids_setExcode (pid code : Int32) :
    pids (setExcode plist pid code) = pids plist :=
  pids_assign (f := fun node => ⟨node.pid, 1, code⟩) (fun _ => rfl) plist pid

theorem pids_setExited (pid : Int32) :
    pids (setExited plist pid) = pids plist :=
  pids_assign (f := fun node => ⟨node.pid, 1, node.excode⟩) (fun _ => rfl) plist pid

theorem pids_insertToPlist (t : Tid) (pid : Int32) :
    pids (insertToPlist plist t pid) = pids plist ++ [pid] := by
  simp [pids, insertToPlist]

end Plist

end Thread

end Os161
