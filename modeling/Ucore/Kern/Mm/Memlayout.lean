/-!
This module contains `struct Page` of kern/mm/memlayout.h with the bit operations of
libs/atomic.h on its flags.
-/

namespace Ucore

def setBit (nr : Nat) (addr : BitVec 64) : BitVec 64 := addr ||| (1#64 <<< nr)

def clearBit (nr : Nat) (addr : BitVec 64) : BitVec 64 := addr &&& ~~~(1#64 <<< nr)

def testBit (nr : Nat) (addr : BitVec 64) : Bool := (addr >>> nr).getLsbD 0

def pgReserved : Nat := 0

def pgProperty : Nat := 1

/--
The fields of `struct Page` that the page allocator uses. The link field `page_link` lives in the
`Links` of the free list.
-/
structure Page where
  ref : Int
  flags : BitVec 64
  property : Nat

namespace Page

def setReserved (page : Page) : Page := { page with flags := setBit pgReserved page.flags }

def reserved (page : Page) : Bool := testBit pgReserved page.flags

def setProperty (page : Page) : Page := { page with flags := setBit pgProperty page.flags }

def clearProperty (page : Page) : Page := { page with flags := clearBit pgProperty page.flags }

def isProperty (page : Page) : Bool := testBit pgProperty page.flags

variable (page : Page) (r : Int) (n : Nat)

@[simp]
theorem setProperty_property : page.setProperty.property = page.property := rfl

@[simp]
theorem clearProperty_property : page.clearProperty.property = page.property := rfl

@[simp]
theorem setProperty_isProperty : page.setProperty.isProperty = true := by
  simp [setProperty, isProperty, setBit, testBit, pgProperty]

@[simp]
theorem clearProperty_isProperty : page.clearProperty.isProperty = false := by
  simp [clearProperty, isProperty, clearBit, testBit, pgProperty]

@[simp]
theorem setProperty_reserved : page.setProperty.reserved = page.reserved := by
  simp [setProperty, reserved, setBit, testBit, pgProperty, pgReserved]

@[simp]
theorem clearProperty_reserved : page.clearProperty.reserved = page.reserved := by
  simp [clearProperty, reserved, clearBit, testBit, pgProperty, pgReserved]

@[simp]
theorem isProperty_mk_zero : isProperty ⟨r, 0#64, n⟩ = false := by
  simp [isProperty, testBit, pgProperty]

@[simp]
theorem reserved_mk_zero : reserved ⟨r, 0#64, n⟩ = false := by
  simp [reserved, testBit, pgReserved]

@[simp]
theorem isProperty_with_property (m : Nat)
    : isProperty { page with property := m } = page.isProperty := rfl

@[simp]
theorem reserved_with_property (m : Nat)
    : reserved { page with property := m } = page.reserved := rfl

end Page
end Ucore
