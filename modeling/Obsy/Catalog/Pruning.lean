import Obsy.Catalog.Journal

/-!
# Pruning the catalog

Commits and snapshots that no startup reads any more are deleted.  Two snapshots are kept that
verify on both replicas and close over the commit at their generation, with every commit after the
older one.

* `catalogSnapshotIsIntact`: both replicas of a snapshot verify.
* `newestIntact`: the newest snapshots that do.
* `pruneCatalogAt`: what is older than the second of them, and old enough, is deleted.
-/

namespace Obsy

namespace Catalog

open Machine Machine.Program

variable (digests : Digests)

/-- The two kinds of objects a catalog is made of. -/
inductive CatalogKind
  | snapshots
  | commits
deriving DecidableEq

/-- `catalog_snapshot_is_intact`. -/
def catalogSnapshotIsIntact (generation : ℕ) : CatalogProgram Bool := do
  let first ← loadSnapshotReplica digests .a generation
  let second ← loadSnapshotReplica digests .b generation
  match first, second with
  | .ok (some first), .ok (some second) =>
    if first ≠ second then return false
    else
      let commit ← attempt (loadCatalogCommit digests generation)
      match commit with
      | .ok commit => return commit.digest = first.throughDigest
      | .error _ => return false
  | _, _ => return false

/-- The first intact snapshots among these generations, up to a number. -/
def newestIntact : ℕ → List ℕ → CatalogProgram (List ℕ)
  | 0, _ => return []
  | _, [] => return []
  | wanted + 1, generation :: rest => do
    let intact : Bool ← catalogSnapshotIsIntact digests generation
    if intact then
      let older ← newestIntact wanted rest
      return generation :: older
    else newestIntact (wanted + 1) rest

def listReplica : CatalogKind → Replica → CatalogProgram (List ℕ)
  -- no generation is zero
  | .commits, replica => ask (.listCommits replica 0)
  | .snapshots, replica => ask (.listSnapshots replica)

/-- Delete one object. -/
def deleteReplica : CatalogKind → Replica → ℕ → CatalogProgram Unit
  | .commits, replica, generation => act (.deleteCommit replica generation)
  | .snapshots, replica, generation => act (.deleteSnapshot replica generation)

/-- Milliseconds since the epoch. -/
abbrev Millis := ℤ

/-- The longest time span, `TimeDelta::MAX`. -/
def maxTimeDelta : Millis := 2 ^ 63 - 1

/-- Delete the objects of one replica that are older than a generation and than a time; how many
there were. -/
def deleteSuperseded (oldestKept : ℕ) (cutoff : Millis)
    (lastModified : CatalogKind → Replica → ℕ → Millis) (kind : CatalogKind) (replica : Replica) :
    CatalogProgram ℕ := do
  let generations ← listReplica kind replica
  let superseded := generations.filter fun generation =>
    generation < oldestKept && lastModified kind replica generation < cutoff
  let _ ← each (deleteReplica kind replica) superseded
  return superseded.length

/-- `prune_catalog_at`: how many objects were deleted. -/
def pruneCatalogAt (minAge now : Millis) (lastModified : CatalogKind → Replica → ℕ → Millis) :
    CatalogProgram ℕ := do
  let generations ← snapshotGenerations
  let verified ← newestIntact digests 2 generations.reverse
  match verified with
  | [_, oldestKept] =>
    if maxTimeDelta < minAge then throw .pruneAge
    else
      let removed ← each (fun x : CatalogKind × Replica =>
          deleteSuperseded oldestKept (now - minAge) lastModified x.1 x.2)
        [(.snapshots, .a), (.snapshots, .b), (.commits, .a), (.commits, .b)]
      return removed.sum
  | _ => return 0

end Catalog

end Obsy
