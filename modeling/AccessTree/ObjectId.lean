/-!
Handles of objects. A handle holds the number of a cell and the version that the cell had when
the object was put into it, so a handle outlives its object without ever naming another one.
-/

namespace AccessTree

@[ext]
structure ObjectId where
  cell : UInt32
  version : UInt32
  deriving DecidableEq

namespace ObjectId

/-- The handle as one number: the version above the cell. -/
def raw (i : ObjectId) : UInt64 := .ofNat (i.version.toNat * 0x100000000 + i.cell.toNat)

/-- The handle that a number stands for. A version in use is odd, so an even one is read as the
next. -/
def ofRaw (n : UInt64) : ObjectId :=
  ⟨.ofNat (n.toNat % 0x100000000), .ofNat (n.toNat / 0x100000000) ||| 1⟩

/-- The last cell is never used, so a handle of it stands for no object. -/
def isNull (i : ObjectId) : Bool := i.cell == 0xFFFFFFFF

def text (i : ObjectId) : String :=
  if i.isNull then "ObjectId(null)"
  else "ObjectId(" ++ toString i.cell.toNat ++ "v" ++ toString i.version.toNat ++ ")"

theorem toNat_raw (i : ObjectId) : i.raw.toNat = i.version.toNat * 0x100000000 + i.cell.toNat := by
  have := i.version.toNat_lt
  have := i.cell.toNat_lt
  simp only [raw, UInt64.toNat_ofNat']
  omega

/-- A handle is found again from its number if its version is odd. -/
theorem ofRaw_raw {i : ObjectId} (odd : i.version ||| 1 = i.version) : ofRaw i.raw = i := by
  have := i.version.toNat_lt
  have := i.cell.toNat_lt
  obtain ⟨cell, version⟩ := i
  simp only [ofRaw, toNat_raw, mk.injEq] at *
  rw [show (version.toNat * 0x100000000 + cell.toNat) % 0x100000000 = cell.toNat by omega,
    show (version.toNat * 0x100000000 + cell.toNat) / 0x100000000 = version.toNat by omega]
  simpa using odd

theorem raw_inj {i j : ObjectId} : i.raw = j.raw ↔ i = j := by
  refine ⟨fun h => ?_, fun h => h ▸ rfl⟩
  have h := congrArg UInt64.toNat h
  rw [toNat_raw, toNat_raw] at h
  have := i.cell.toNat_lt
  have := j.cell.toNat_lt
  obtain ⟨c, v⟩ := i
  obtain ⟨c', v'⟩ := j
  simp only [mk.injEq, ← UInt32.toNat_inj] at *
  omega

end ObjectId

end AccessTree
