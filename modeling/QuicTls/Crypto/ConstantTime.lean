/-!
# Constant-time primitives (include/internal/constant_time.h)

The functions exist for `unsigned int` and for `size_t` (`_s`); here they are stated for every
width. Their results are masks, with all bits set or none. The barriers that keep the compiler from
seeing the range of a mask return their argument.
-/

namespace QuicTls

abbrev SizeT := BitVec 64

variable {w : Nat}

def constantTimeMsb (a : BitVec w) : BitVec w := 0 - (a >>> (w - 1))

def constantTimeLt (a b : BitVec w) : BitVec w :=
  constantTimeMsb (a ^^^ ((a ^^^ b) ||| ((a - b) ^^^ b)))

def constantTimeGe (a b : BitVec w) : BitVec w := ~~~constantTimeLt a b

def constantTimeIsZero (a : BitVec w) : BitVec w := constantTimeMsb (~~~a &&& (a - 1))

def constantTimeEq (a b : BitVec w) : BitVec w := constantTimeIsZero (a ^^^ b)

def constantTimeSelect (mask a b : BitVec w) : BitVec w := (mask &&& a) ||| (~~~mask &&& b)

/-- `constant_time_ge_8`, `constant_time_ge_8_s` -/
def constantTimeGe8 (a b : BitVec w) : BitVec 8 := (constantTimeGe a b).setWidth 8

/-- `constant_time_eq_8`, `constant_time_eq_8_s` -/
def constantTimeEq8 (a b : BitVec w) : BitVec 8 := (constantTimeEq a b).setWidth 8

def constantTimeSelect8 (mask a b : BitVec 8) : BitVec 8 :=
  (constantTimeSelect (mask.setWidth 32) (a.setWidth 32) (b.setWidth 32)).setWidth 8

end QuicTls
