/-!
# Registers and conditions
-/

namespace Armature.A64

/-- A 64-bit general register. Number 31 is the stack pointer as a base address and in additions and
subtractions of an immediate. Everywhere else it reads as zero. -/
structure XReg where
  num : BitVec 5
deriving DecidableEq

/-- A double-precision register. -/
structure DReg where
  num : BitVec 3
deriving DecidableEq

namespace XReg

def x0 : XReg := ⟨0⟩
def x1 : XReg := ⟨1⟩
def x2 : XReg := ⟨2⟩
def x16 : XReg := ⟨16⟩
def x17 : XReg := ⟨17⟩
def x28 : XReg := ⟨28⟩
def x29 : XReg := ⟨29⟩
def x30 : XReg := ⟨30⟩
def sp : XReg := ⟨31⟩
def zr : XReg := ⟨31⟩

/-- Where the slots of the current frame start. -/
def frameBase : XReg := x28

/-- The register that passes argument number `i`, for `i < 8`. -/
def argument (i : Nat) : XReg := ⟨BitVec.ofNat 5 i⟩

/-- The register that holds argument number `i` while later ones are computed, for `i < 9`. It
survives a call. -/
def staging (i : Nat) : XReg := ⟨BitVec.ofNat 5 (19 + i)⟩

def isArgument (r : XReg) : Bool := r.num < 8

/-- The pairs that a function saves, in the order in which it pushes them. -/
def savedPairs : List (XReg × XReg) :=
  [(⟨19⟩, ⟨20⟩), (⟨21⟩, ⟨22⟩), (⟨23⟩, ⟨24⟩), (⟨25⟩, ⟨26⟩), (⟨27⟩, ⟨28⟩)]

end XReg

namespace DReg

def d0 : DReg := ⟨0⟩
def d1 : DReg := ⟨1⟩
def d2 : DReg := ⟨2⟩

end DReg

inductive Cond where
  | eq | ne | cs | cc | mi | pl | vs | vc | hi | ls | ge | lt | gt | le | al | nv
deriving DecidableEq

namespace Cond

def all : List Cond :=
  [.eq, .ne, .cs, .cc, .mi, .pl, .vs, .vc, .hi, .ls, .ge, .lt, .gt, .le, .al, .nv]

def code : Cond → BitVec 4
  | eq => 0 | ne => 1 | cs => 2 | cc => 3 | mi => 4 | pl => 5 | vs => 6 | vc => 7
  | hi => 8 | ls => 9 | ge => 10 | lt => 11 | gt => 12 | le => 13 | al => 14 | nv => 15

def ofCode (c : BitVec 4) : Cond := (all.find? (·.code = c)).getD .nv

def name : Cond → String
  | eq => "EQ" | ne => "NE" | cs => "CS" | cc => "CC" | mi => "MI" | pl => "PL" | vs => "VS"
  | vc => "VC" | hi => "HI" | ls => "LS" | ge => "GE" | lt => "LT" | gt => "GT" | le => "LE"
  | al => "AL" | nv => "NV"

/-- The condition that holds when this one does not. Its code differs in the lowest bit. -/
def invert : Cond → Cond
  | eq => ne | ne => eq | cs => cc | cc => cs | mi => pl | pl => mi | vs => vc | vc => vs
  | hi => ls | ls => hi | ge => lt | lt => ge | gt => le | le => gt | al => nv | nv => al

end Cond

end Armature.A64
