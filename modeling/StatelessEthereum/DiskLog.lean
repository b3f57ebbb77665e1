import StatelessEthereum.PutLog
import StatelessEthereum.BigEndian

/- What a tree keeps on disk: a node database and a file with the reference of
   the root. The disk is the list of the storage effects, newest first;
   everything on it is read off that list, so what a crash leaves behind is an
   older part of it. -/
namespace DiskLog
open BigEndian PutLog

inductive DiskEffect where
  | put (reference encoded : Bytes)
  | truncateRoot
  | writeRoot (reference : Bytes)
  deriving DecidableEq

structure Disk where
  effects : List DiskEffect
  deriving DecidableEq

def DiskEffect.asPut : DiskEffect → Option (Bytes × Bytes)
  | .put reference encoded => some (reference, encoded)
  | _ => none

def DiskEffect.asRoot : DiskEffect → Option Bytes
  | .put _ _ => none
  | .truncateRoot => some []
  | .writeRoot reference => some reference

def Disk.db (d : Disk) : Store Bytes Bytes := ⟨d.effects.filterMap DiskEffect.asPut⟩

def Disk.rootFile (d : Disk) : Option Bytes := d.effects.findSome? DiskEffect.asRoot

def Disk.apply (d : Disk) (e : DiskEffect) : Disk := ⟨e :: d.effects⟩

@[simp] theorem db_put (d : Disk) (r e : Bytes) : (d.apply (.put r e)).db = d.db.put r e := rfl

@[simp] theorem db_truncate (d : Disk) : (d.apply .truncateRoot).db = d.db := rfl

@[simp] theorem db_writeRoot (d : Disk) (r : Bytes) : (d.apply (.writeRoot r)).db = d.db := rfl

@[simp] theorem rootFile_put (d : Disk) (r e : Bytes) :
    (d.apply (.put r e)).rootFile = d.rootFile := rfl

@[simp] theorem rootFile_writeRoot (d : Disk) (r : Bytes) :
    (d.apply (.writeRoot r)).rootFile = some r := rfl

end DiskLog
