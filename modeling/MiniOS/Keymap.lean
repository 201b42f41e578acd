import Mathlib.Logic.Basic

/-!
# Keys

The key values of `keyboard.h` and the table of `keymap.h`: for each scan code the key
without shift, with shift, and behind the prefix `E0`. The rows from `5E` on are empty.
-/

namespace MiniOS

def flagExt : BitVec 32 := 0x0100

def flagShiftL : BitVec 32 := 0x0200

def flagShiftR : BitVec 32 := 0x0400

def flagCtrlL : BitVec 32 := 0x0800

def flagCtrlR : BitVec 32 := 0x1000

def flagAltL : BitVec 32 := 0x2000

def flagAltR : BitVec 32 := 0x4000

def flagPad : BitVec 32 := 0x8000

def maskRaw : BitVec 32 := 0x01FF

namespace Key

def esc : BitVec 32 := 0x101

def tab : BitVec 32 := 0x102

def enter : BitVec 32 := 0x103

def backspace : BitVec 32 := 0x104

def guiL : BitVec 32 := 0x105

def guiR : BitVec 32 := 0x106

def apps : BitVec 32 := 0x107

def shiftL : BitVec 32 := 0x108

def shiftR : BitVec 32 := 0x109

def ctrlL : BitVec 32 := 0x10A

def ctrlR : BitVec 32 := 0x10B

def altL : BitVec 32 := 0x10C

def altR : BitVec 32 := 0x10D

def capsLock : BitVec 32 := 0x10E

def numLock : BitVec 32 := 0x10F

def scrollLock : BitVec 32 := 0x110

def f1 : BitVec 32 := 0x111

def f2 : BitVec 32 := 0x112

def f3 : BitVec 32 := 0x113

def f4 : BitVec 32 := 0x114

def f5 : BitVec 32 := 0x115

def f6 : BitVec 32 := 0x116

def f7 : BitVec 32 := 0x117

def f8 : BitVec 32 := 0x118

def f9 : BitVec 32 := 0x119

def f10 : BitVec 32 := 0x11A

def f11 : BitVec 32 := 0x11B

def f12 : BitVec 32 := 0x11C

def printScreen : BitVec 32 := 0x11D

def pauseBreak : BitVec 32 := 0x11E

def insert : BitVec 32 := 0x11F

def delete : BitVec 32 := 0x120

def home : BitVec 32 := 0x121

def endKey : BitVec 32 := 0x122

def pageUp : BitVec 32 := 0x123

def pageDown : BitVec 32 := 0x124

def up : BitVec 32 := 0x125

def down : BitVec 32 := 0x126

def left : BitVec 32 := 0x127

def right : BitVec 32 := 0x128

def padSlash : BitVec 32 := 0x12C

def padStar : BitVec 32 := 0x12D

def padMinus : BitVec 32 := 0x12E

def padPlus : BitVec 32 := 0x12F

def padEnter : BitVec 32 := 0x130

def padDot : BitVec 32 := 0x131

def pad0 : BitVec 32 := 0x132

def pad1 : BitVec 32 := 0x133

def pad2 : BitVec 32 := 0x134

def pad3 : BitVec 32 := 0x135

def pad4 : BitVec 32 := 0x136

def pad5 : BitVec 32 := 0x137

def pad6 : BitVec 32 := 0x138

def pad7 : BitVec 32 := 0x139

def pad8 : BitVec 32 := 0x13A

def pad9 : BitVec 32 := 0x13B

def padUp : BitVec 32 := pad8

def padDown : BitVec 32 := pad2

def padLeft : BitVec 32 := pad4

def padRight : BitVec 32 := pad6

def padHome : BitVec 32 := pad7

def padEnd : BitVec 32 := pad1

def padPageUp : BitVec 32 := pad9

def padPageDown : BitVec 32 := pad3

def padIns : BitVec 32 := pad0

def padMid : BitVec 32 := pad5

end Key

def ch (c : Char) : BitVec 32 := BitVec.ofNat 32 c.toNat

def keymapRows : List (BitVec 32 × BitVec 32 × BitVec 32) :=
  [(0, 0, 0), (Key.esc, Key.esc, 0), (ch '1', 0x21, 0), (ch '2', 0x40, 0), (ch '3', 0x23, 0), (ch '4', 0x24, 0),
    (ch '5', 0x25, 0), (ch '6', 0x5E, 0), (ch '7', 0x26, 0), (ch '8', 0x2A, 0), (ch '9', 0x28, 0),
    (ch '0', 0x29, 0),
    (0x2D, 0x5F, 0), (0x3D, 0x2B, 0), (Key.backspace, Key.backspace, 0), (Key.tab, Key.tab, 0), (ch 'q', ch 'Q', 0),
    (ch 'w', ch 'W', 0), (ch 'e', ch 'E', 0), (ch 'r', ch 'R', 0), (ch 't', ch 'T', 0), (ch 'y', ch 'Y', 0),
    (ch 'u', ch 'U', 0), (ch 'i', ch 'I', 0), (ch 'o', ch 'O', 0), (ch 'p', ch 'P', 0), (0x5B, 0x7B, 0),
    (0x5D, 0x7D, 0), (Key.enter, Key.enter, Key.padEnter), (Key.ctrlL, Key.ctrlL, Key.ctrlR), (ch 'a', ch 'A', 0),
    (ch 's', ch 'S', 0), (ch 'd', ch 'D', 0), (ch 'f', ch 'F', 0), (ch 'g', ch 'G', 0), (ch 'h', ch 'H', 0),
    (ch 'j', ch 'J', 0), (ch 'k', ch 'K', 0), (ch 'l', ch 'L', 0), (0x3B, 0x3A, 0), (0x27, 0x22, 0),
    (0x60, 0x7E, 0),
    (Key.shiftL, Key.shiftL, 0), (0x5C, 0x7C, 0), (ch 'z', ch 'Z', 0), (ch 'x', ch 'X', 0), (ch 'c', ch 'C', 0),
    (ch 'v', ch 'V', 0), (ch 'b', ch 'B', 0), (ch 'n', ch 'N', 0), (ch 'm', ch 'M', 0), (0x2C, 0x3C, 0),
    (0x2E, 0x3E, 0), (0x2F, 0x3F, Key.padSlash), (Key.shiftR, Key.shiftR, 0), (0x2A, 0x2A, 0),
    (Key.altL, Key.altL, Key.altR), (0x20, 0x20, 0), (Key.capsLock, Key.capsLock, 0), (Key.f1, Key.f1, 0),
    (Key.f2, Key.f2, 0), (Key.f3, Key.f3, 0), (Key.f4, Key.f4, 0), (Key.f5, Key.f5, 0), (Key.f6, Key.f6, 0),
    (Key.f7, Key.f7, 0), (Key.f8, Key.f8, 0), (Key.f9, Key.f9, 0), (Key.f10, Key.f10, 0),
    (Key.numLock, Key.numLock, 0), (Key.scrollLock, Key.scrollLock, 0), (Key.padHome, ch '7', Key.home),
    (Key.padUp, ch '8', Key.up), (Key.padPageUp, ch '9', Key.pageUp), (Key.padMinus, 0x2D, 0),
    (Key.padLeft, ch '4', Key.left), (Key.padMid, ch '5', 0), (Key.padRight, ch '6', Key.right),
    (Key.padPlus, 0x2B, 0), (Key.padEnd, ch '1', Key.endKey), (Key.padDown, ch '2', Key.down),
    (Key.padPageDown, ch '3', Key.pageDown), (Key.padIns, ch '0', Key.insert), (Key.padDot, 0x2E, Key.delete),
    (0, 0, 0), (0, 0, 0), (0, 0, 0), (Key.f11, Key.f11, 0), (Key.f12, Key.f12, 0), (0, 0, 0), (0, 0, 0),
    (0, 0, Key.guiL), (0, 0, Key.guiR), (0, 0, Key.apps)]

def keymap (row column : Nat) : BitVec 32 :=
  let r := keymapRows.getD row (0, 0, 0)
  if column = 0 then r.1 else if column = 1 then r.2.1 else r.2.2

end MiniOS
