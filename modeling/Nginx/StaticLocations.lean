import Mathlib.Algebra.Order.Ring.Int
import Mathlib.Data.List.Sort

/-!
# The tree of static locations

The locations of one level are sorted by name and the exact and the inclusive one of a name
are joined. A location that is inclusive takes the locations that extend its name into a
list of its own, and each list becomes a binary tree whose nodes hold what the names have
past the name of the location that owns the list. A request walks down one path.
-/

set_option autoImplicit false

namespace Nginx.StaticLocations

/-- What a static location of `ngx_http_core_loc_conf_t` has to do with the tree; `locConf`
stands for its `loc_conf`. -/
structure LocConf where
  name : List UInt8
  exactMatch : Bool
  autoRedirect : Bool
  locConf : ℕ
  deriving DecidableEq, Repr

structure LocationQueue where
  exact : Option LocConf
  inclusive : Option LocConf
  name : List UInt8
  deriving DecidableEq, Repr

inductive Location where
  | mk (lq : LocationQueue) (list : List Location)

/-- `ngx_http_location_tree_node_t`; `nil` is NULL. -/
inductive LocationTreeNode where
  | nil
  | node (left right tree : LocationTreeNode) (exact inclusive : Option LocConf)
      (autoRedirect : Bool) (len : ℕ) (name : List UInt8)
  deriving DecidableEq, Repr

@[grind =] def ngxStrcmp : List UInt8 → List UInt8 → ℤ
  | [], [] => 0
  | [], y::_ => -y.toNat
  | x::_, [] => x.toNat
  | x::a, y::b =>
    if x = y then if x = 0 then 0 else ngxStrcmp a b else (x.toNat : ℤ)-y.toNat

@[grind =] def ngxStrncmp : List UInt8 → List UInt8 → ℕ → ℤ
  | _, _, 0 => 0
  | [], [], _+1 => 0
  | [], y::_, _+1 => -y.toNat
  | x::_, [], _+1 => x.toNat
  | x::a, y::b, n+1 =>
    if x = y then if x = 0 then 0 else ngxStrncmp a b n else (x.toNat : ℤ)-y.toNat

/-- `ngx_filename_cmp`, which compares bytes where file names have case. -/
@[grind =] def ngxFilenameCmp : List UInt8 → List UInt8 → ℕ → ℤ
  | x::a, y::b, n+1 => if x = y then ngxFilenameCmp a b n else (x.toNat : ℤ)-y.toNat
  | _, _, _ => 0

def ngxHttpAddLocation (clcf : LocConf) : LocationQueue :=
  if clcf.exactMatch then ⟨some clcf,none,clcf.name⟩ else ⟨none,some clcf,clcf.name⟩

def LocationQueue.conf (lq : LocationQueue) : Option LocConf :=
  if lq.exact.isSome then lq.exact else lq.inclusive

def exactMatch (c : Option LocConf) : Bool := c.any LocConf.exactMatch

/-- `ngx_http_cmp_locations` of locations that have names and no regular expression -/
def ngxHttpCmpLocations (one two : LocationQueue) : ℤ :=
  let rc := ngxStrcmp one.name two.name
  -- an exact match must be before the same inclusive one
  if rc = 0 ∧ exactMatch one.conf = false ∧ exactMatch two.conf = true then 1 else rc

/-- `ngx_queue_sort`: each element is taken back past those that are greater; the sorted
part is held last element first. -/
def ngxQueueSort {α : Type} (cmp : α → α → ℤ) (queue : List α) : List α :=
  (queue.foldl (fun sorted q => sorted.orderedInsert (fun q prev => cmp prev q ≤ 0) q)
    []).reverse

/-- The loop of `ngx_http_join_exact_locations`; `none` is a duplicate location. -/
@[grind =] def joinFrom (lq : LocationQueue) : List LocationQueue → Option (List LocationQueue)
  | [] => some [lq]
  | lx::rest =>
    if ngxStrcmp lq.name lx.name = 0 then
      if (lq.exact.isSome ∧ lx.exact.isSome) ∨ (lq.inclusive.isSome ∧ lx.inclusive.isSome)
      then none
      else joinFrom { lq with inclusive := lx.inclusive } rest
    else (joinFrom lx rest).map (lq::·)

def ngxHttpJoinExactLocations : List LocationQueue → Option (List LocationQueue)
  | [] => some []
  | lq::rest => joinFrom lq rest

/-- Whether the loop of `ngx_http_create_locations_list` goes on past a location. -/
def goesOn (lq lx : LocationQueue) : Bool :=
  decide (lq.name.length ≤ lx.name.length ∧
    ngxStrncmp lq.name lx.name lq.name.length = 0)

@[grind =] def ngxHttpCreateLocationsList : List LocationQueue → List Location
  | [] => []
  | lq::rest =>
    if lq.inclusive = none then ⟨lq,[]⟩::ngxHttpCreateLocationsList rest
    else ⟨lq,ngxHttpCreateLocationsList (rest.takeWhile (goesOn lq))⟩::
      ngxHttpCreateLocationsList (rest.dropWhile (goesOn lq))
termination_by locations => locations.length
decreasing_by
  · simp
  · have h := (rest.takeWhile_sublist (goesOn lq)).length_le
    simp only [List.length_cons]
    omega
  · have h := (rest.dropWhile_sublist (goesOn lq)).length_le
    simp only [List.length_cons]
    omega

def entries : List Location → List LocationQueue
  | [] => []
  | ⟨lq,list⟩::rest => lq::entries list++entries rest

theorem entries_append (a b : List Location) : entries (a++b) = entries a++entries b := by
  induction a with
  | nil => simp [entries]
  | cons m a ih =>
    cases m with
    | mk lq list => simp [entries, ih]

/-- `ngx_http_create_locations_tree`: the middle of the queue, which is the first of the
second half, is the root. -/
def ngxHttpCreateLocationsTree (locations : List Location) (pre : ℕ) : LocationTreeNode :=
  match h : locations.drop (locations.length/2) with
  | [] => .nil
  | ⟨lq,list⟩::tail =>
    let len := lq.name.length-pre
    .node (ngxHttpCreateLocationsTree (locations.take (locations.length/2)) pre)
      (ngxHttpCreateLocationsTree tail pre)
      (ngxHttpCreateLocationsTree list (pre+len))
      lq.exact lq.inclusive
      (lq.exact.any LocConf.autoRedirect || lq.inclusive.any LocConf.autoRedirect)
      (len % 256) (lq.name.drop pre)
termination_by (entries locations).length
decreasing_by
  all_goals
    have hd : entries locations = entries (locations.take (locations.length/2))++
        entries (⟨lq,list⟩::tail) := by
      rw [← h, ← entries_append, List.take_append_drop]
    rw [hd]
    simp only [entries, List.length_append, List.length_cons]
    omega

def staticLocations (locations : List LocConf) : Option LocationTreeNode :=
  (ngxHttpJoinExactLocations (ngxQueueSort ngxHttpCmpLocations
    (locations.map ngxHttpAddLocation))).map
      fun locations => ngxHttpCreateLocationsTree (ngxHttpCreateLocationsList locations) 0

inductive Rc where
  | ok
  | done
  | again
  | declined
  deriving DecidableEq, Repr

/-- `ngx_http_core_find_static_location`: what it returns, with the location whose
`loc_conf` the request has been given. -/
@[grind =] def ngxHttpCoreFindStaticLocation (uri : List UInt8) (rv : Rc × Option LocConf) :
    LocationTreeNode → Rc × Option LocConf
  | .nil => rv
  | .node left right tree exact inclusive autoRedirect len name =>
    let n := if uri.length ≤ len then uri.length else len
    let rc := ngxFilenameCmp uri name n
    if rc ≠ 0 then
      if rc < 0 then ngxHttpCoreFindStaticLocation uri rv left
      else ngxHttpCoreFindStaticLocation uri rv right
    else if uri.length > len then
      if inclusive.isSome then
        ngxHttpCoreFindStaticLocation (uri.drop n) (.again, inclusive) tree
      else ngxHttpCoreFindStaticLocation uri rv right
    else if uri.length = len then
      if exact.isSome then (.ok, exact) else (.again, inclusive)
    else if uri.length+1 = len ∧ autoRedirect = true then
      ngxHttpCoreFindStaticLocation uri
        (.done, if exact.isSome then exact else inclusive) left
    else ngxHttpCoreFindStaticLocation uri rv left

end Nginx.StaticLocations
