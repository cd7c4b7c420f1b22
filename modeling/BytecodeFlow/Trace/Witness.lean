import BytecodeFlow.Machine.Location
import BytecodeFlow.Notice

/-!
# Witness graphs

For each traced site, the sites that its value may have come from, in the order in which they were
first recorded. A graph unfolds into linear traces: the paths from a site that follow recorded
sources, never visit a site twice, and cannot be continued.
-/
namespace BytecodeFlow

/-- Linear traces are cut off at this many sites. -/
def maxTraceLength : Nat := 1000

structure Witness where
  /-- The sites in the order in which they were first mentioned, each with its sources. -/
  entries : List (Site × List Site)
  deriving DecidableEq, Repr

namespace Witness

def empty : Witness := ⟨[]⟩

def size (w : Witness) : Nat := w.entries.length

def isEmpty (w : Witness) : Bool := w.entries.isEmpty

def contains (w : Witness) (s : Site) : Bool := w.entries.any (·.1 == s)

def sources (w : Witness) (s : Site) : List Site := (w.entries.lookup s).getD []

def mention (w : Witness) (s : Site) : Witness :=
  if w.contains s then w else ⟨w.entries ++ [(s, [])]⟩

/-- Records a source of a site that has been mentioned. -/
def link (w : Witness) (s source : Site) : Witness :=
  let w := w.mention source
  ⟨w.entries.map fun e => if e.1 = s ∧ source ∉ e.2 then (e.1, e.2 ++ [source]) else e⟩

def addSources (w : Witness) (s : Site) (sources : List Site) : Witness :=
  sources.foldl (fun w source => w.link s source) (w.mention s)

/-- The sources of the last site that are not on the path yet. -/
def fresh (w : Witness) (last : Site) (before : List Site) : List Site :=
  (w.sources last).filter (· ∉ last :: before)

/-- The sources that continue a path, given from its last site. -/
def next (w : Witness) (last : Site) (before : List Site) : List Site :=
  if maxTraceLength ≤ (last :: before).length then [] else w.fresh last before

/-- Pushes the continuations of a path onto the pending ones, the last one first. -/
def pushAll (path next : List Site) (pending : List (List Site)) : List (List Site) :=
  next.reverse.foldl (fun pending s => (s :: path) :: pending) pending

theorem pushAll_eq (path next : List Site) (pending : List (List Site)) :
    pushAll path next pending = next.map (· :: path) ++ pending := by
  unfold pushAll
  rw [List.foldl_reverse]
  induction next with
  | nil => rfl
  | cons s next ih => exact congrArg ((s :: path) :: ·) ih

-- how many paths are taken from the stack for a path that may grow by so many sites
def visits (w : Witness) : (room : Nat) → (last : Site) → (before : List Site) → Nat
  | 0, _, _ => 1
  | room + 1, last, before =>
    (w.fresh last before).foldr (fun s n => w.visits room s (last :: before) + n) 1

def pathVisits (w : Witness) : List Site → Nat
  | [] => 1
  | last :: before => w.visits (maxTraceLength - (last :: before).length) last before

def pendingVisits (w : Witness) : List (List Site) → Nat
  | [] => 0
  | path :: pending => w.pathVisits path + w.pendingVisits pending

theorem pendingVisits_append (w : Witness) (paths pending : List (List Site)) :
    w.pendingVisits (paths ++ pending) = w.pendingVisits paths + w.pendingVisits pending := by
  induction paths with
  | nil => exact (Nat.zero_add _).symm
  | cons path paths ih => simp only [List.cons_append, pendingVisits, ih, Nat.add_assoc]

theorem pendingVisits_continuations (w : Witness) {room : Nat} {path : List Site}
    (h : maxTraceLength - path.length = room + 1) (sources : List Site) :
    w.pendingVisits (sources.map (· :: path)) < sources.foldr (fun s n => w.visits room s path + n) 1 := by
  induction sources with
  | nil => exact Nat.one_pos
  | cons s sources ih =>
    have hroom : maxTraceLength - (s :: path).length = room := by
      rw [List.length_cons]
      omega
    simp only [List.map_cons, pendingVisits, List.foldr_cons, pathVisits, hroom]
    omega

theorem pathVisits_pos (w : Witness) (path : List Site) : 0 < w.pathVisits path := by
  have hfoldr : ∀ (f : Site → Nat) (sources : List Site), 0 < sources.foldr (fun s n => f s + n) 1 := by
    intro f sources
    induction sources with
    | nil => exact Nat.one_pos
    | cons s sources ih => exact Nat.add_pos_right (f s) ih
  unfold pathVisits
  split
  · exact Nat.one_pos
  · unfold visits
    split
    · exact Nat.one_pos
    · exact hfoldr _ _

theorem pendingVisits_next (w : Witness) (last : Site) (before : List Site) :
    w.pendingVisits ((w.next last before).map (· :: last :: before)) < w.pathVisits (last :: before) := by
  unfold next
  split
  · exact w.pathVisits_pos (last :: before)
  · obtain ⟨room, hroom⟩ : ∃ room, maxTraceLength - (last :: before).length = room + 1 :=
      Nat.exists_eq_succ_of_ne_zero (by omega)
    rw [pathVisits, hroom, visits]
    exact w.pendingVisits_continuations hroom (w.fresh last before)

/-- Takes the pending paths from their stack, each given from its last site. A path that cannot be continued is a
trace, and of any other the continuations are pushed. -/
def unfoldPaths (w : Witness) (pending : List (List Site)) (traces : Array (List Site)) : Array (List Site) :=
  match pending with
  | [] => traces
  | [] :: pending => w.unfoldPaths pending traces
  | (last :: before) :: pending =>
    if (w.next last before).isEmpty then w.unfoldPaths pending (traces.push (last :: before).reverse)
    else w.unfoldPaths (pushAll (last :: before) (w.next last before) pending) traces
termination_by w.pendingVisits pending
decreasing_by
  · simp [pendingVisits, pathVisits]
  · have := w.pathVisits_pos (last :: before)
    rw [pendingVisits]
    omega
  · have := w.pendingVisits_next last before
    rw [pushAll_eq, pendingVisits_append, pendingVisits]
    omega

def linearTraces (w : Witness) (root : Site) : List (List Site) :=
  if w.contains root then (w.unfoldPaths [[root]] #[]).toList else []

def cutOffNotices (traces : List (List Site)) : List Notice :=
  (traces.filter (maxTraceLength ≤ ·.length)).map fun t => .traceCutOff t.length

def text (w : Witness) : String :=
  Text.map (w.entries.map fun e => (e.1.text, Text.list (e.2.map Site.text)))

end Witness

end BytecodeFlow
