import FishServer.Fmsg
import FishServer.Lib.Sha1

namespace FishServer

open Sha1 (Word Hash wordAt blockWords absorb compress logical constant schedule rounds)

structure SHA1Context where
  messageDigest : Hash
  lengthLow : BitVec 32
  lengthHigh : BitVec 32
  messageBlock : ℕ → Byte
  messageBlockIndex : ℕ
  computed : Bool
  corrupted : Bool

def sha1Reset (stack : ℕ → Byte) : SHA1Context :=
  { messageDigest := ⟨0x67452301#32, 0xEFCDAB89#32, 0x98BADCFE#32, 0x10325476#32, 0xC3D2E1F0#32⟩
    lengthLow := 0
    lengthHigh := 0
    messageBlock := stack
    messageBlockIndex := 0
    computed := false
    corrupted := false }

def circularShift (bits : ℕ) (word : BitVec 32) : BitVec 32 :=
  ((word <<< bits) &&& 0xFFFFFFFF#32) ||| (word >>> (32 - bits))

def loadWord (block : ℕ → Byte) (t : ℕ) : BitVec 32 :=
  ((block (t * 4)).setWidth 32 <<< 24) ||| ((block (t * 4 + 1)).setWidth 32 <<< 16) |||
    ((block (t * 4 + 2)).setWidth 32 <<< 8) ||| (block (t * 4 + 3)).setWidth 32

/-- The words `W[0]`, `W[1]`, … in the order in which the loops store them. -/
def loadWords (block : ℕ → Byte) : List (BitVec 32) := (List.range 16).map (loadWord block)

def expandWord (W : List (BitVec 32)) (t : ℕ) : BitVec 32 :=
  circularShift 1 (W.getD (t - 3) 0 ^^^ W.getD (t - 8) 0 ^^^ W.getD (t - 14) 0 ^^^ W.getD (t - 16) 0)

def expandWords (W : List (BitVec 32)) : ℕ → List (BitVec 32)
  | 0 => W
  | n + 1 =>
    let V := expandWords W n
    V ++ [expandWord V (16 + n)]

def sha1Step (f : BitVec 32 → BitVec 32 → BitVec 32 → BitVec 32) (K : BitVec 32) (W : List (BitVec 32))
    (t : ℕ) (v : Hash) : Hash :=
  { a := (circularShift 5 v.a + f v.b v.c v.d + v.e + W.getD t 0 + K) &&& 0xFFFFFFFF#32
    b := v.a
    c := circularShift 30 v.b
    d := v.c
    e := v.d }

def sha1Loop (f : BitVec 32 → BitVec 32 → BitVec 32 → BitVec 32) (K : BitVec 32) (W : List (BitVec 32))
    (start : ℕ) : ℕ → Hash → Hash
  | 0, v => v
  | n + 1, v => sha1Step f K W (start + n) (sha1Loop f K W start n v)

def choose (B C D : BitVec 32) : BitVec 32 := (B &&& C) ||| (~~~B &&& D)

def exclusive (B C D : BitVec 32) : BitVec 32 := B ^^^ C ^^^ D

def majority (B C D : BitVec 32) : BitVec 32 := (B &&& C) ||| (B &&& D) ||| (C &&& D)

def sha1Words (block : ℕ → Byte) : List (BitVec 32) := expandWords (loadWords block) 64

def sha1Rounds (W : List (BitVec 32)) (v : Hash) : Hash :=
  sha1Loop exclusive 0xCA62C1D6#32 W 60 20 (sha1Loop majority 0x8F1BBCDC#32 W 40 20
    (sha1Loop exclusive 0x6ED9EBA1#32 W 20 20 (sha1Loop choose 0x5A827999#32 W 0 20 v)))

def addDigest (h : Hash) (block : ℕ → Byte) : Hash :=
  let v := sha1Rounds (sha1Words block) h
  { a := (h.a + v.a) &&& 0xFFFFFFFF#32
    b := (h.b + v.b) &&& 0xFFFFFFFF#32
    c := (h.c + v.c) &&& 0xFFFFFFFF#32
    d := (h.d + v.d) &&& 0xFFFFFFFF#32
    e := (h.e + v.e) &&& 0xFFFFFFFF#32 }

def SHA1Context.nextBlock (context : SHA1Context) (h : Hash) : SHA1Context :=
  { context with
    messageDigest := h
    messageBlockIndex := 0 }

def sha1ProcessMessageBlock (context : SHA1Context) : SHA1Context :=
  context.nextBlock (addDigest context.messageDigest context.messageBlock)

def SHA1Context.store (context : SHA1Context) (b : Byte) : SHA1Context :=
  { context with
    messageBlock := Function.update context.messageBlock context.messageBlockIndex b
    messageBlockIndex := context.messageBlockIndex + 1 }

def SHA1Context.countByte (context : SHA1Context) : SHA1Context :=
  let low := (context.lengthLow + 8) &&& 0xFFFFFFFF#32
  if low = 0 then
    let high := (context.lengthHigh + 1) &&& 0xFFFFFFFF#32
    { context with
      lengthLow := low
      lengthHigh := high
      corrupted := context.corrupted || decide (high = 0) }
  else { context with lengthLow := low }

def SHA1Context.flush (context : SHA1Context) : SHA1Context :=
  if context.messageBlockIndex = 64 then sha1ProcessMessageBlock context else context

def sha1InputLoop : List Byte → SHA1Context → SHA1Context
  | [], context => context
  | b :: rest, context =>
    if context.corrupted then context
    else sha1InputLoop rest
      (context.store ((promote b &&& 0xFF#32).setWidth 8)).countByte.flush

def sha1Input (message : List Byte) (context : SHA1Context) : SHA1Context :=
  if message = [] then context
  else if context.computed || context.corrupted then { context with corrupted := true }
  else sha1InputLoop message context

def zeroFill : ℕ → SHA1Context → SHA1Context
  | 0, context => context
  | n + 1, context => zeroFill n (context.store 0)

def zeroTo (limit : ℕ) (context : SHA1Context) : SHA1Context :=
  zeroFill (limit - context.messageBlockIndex) context

def byteOf (word : BitVec 32) (shift : ℕ) : Byte := ((word >>> shift) &&& 0xFF#32).setWidth 8

def storeLength (context : SHA1Context) : SHA1Context :=
  { context with
    messageBlock := fun i =>
      if i = 56 then byteOf context.lengthHigh 24
      else if i = 57 then byteOf context.lengthHigh 16
      else if i = 58 then byteOf context.lengthHigh 8
      else if i = 59 then byteOf context.lengthHigh 0
      else if i = 60 then byteOf context.lengthLow 24
      else if i = 61 then byteOf context.lengthLow 16
      else if i = 62 then byteOf context.lengthLow 8
      else if i = 63 then byteOf context.lengthLow 0
      else context.messageBlock i }

def padBlock (context : SHA1Context) : SHA1Context :=
  if context.messageBlockIndex > 55 then
    zeroTo 56 (sha1ProcessMessageBlock (zeroTo 64 (context.store 0x80#8)))
  else zeroTo 56 (context.store 0x80#8)

def sha1PadMessage (context : SHA1Context) : SHA1Context :=
  sha1ProcessMessageBlock (storeLength (padBlock context))

def sha1Result (context : SHA1Context) : Bool × SHA1Context :=
  if context.corrupted then (false, context)
  else if context.computed then (true, context)
  else (true, { sha1PadMessage context with computed := true })

/-- The bytes of a word in memory on a little-endian machine. -/
def memoryBytes (w : BitVec 32) : List Byte :=
  [byteOf w 0, byteOf w 8, byteOf w 16, byteOf w 24]

def digestBytes (h : Hash) : List Byte :=
  memoryBytes h.a ++ memoryBytes h.b ++ memoryBytes h.c ++ memoryBytes h.d ++ memoryBytes h.e

def swapWords (tmp : List Byte) : List Byte :=
  (List.range 5).flatMap (fun i =>
    [tmp.getD (i * 4 + 3) 0, tmp.getD (i * 4 + 2) 0, tmp.getD (i * 4 + 1) 0, tmp.getD (i * 4) 0])

/-- `strlen` ends the source at its first NUL. The answer is what the call writes to `buf`, none when it
returns -1. -/
def sha1_hash (stack : ℕ → Byte) (source : List Byte) : Option (List Byte) :=
  let context := sha1Input (source.takeWhile (· ≠ 0)) (sha1Reset stack)
  if (sha1Result context).1 then some (swapWords (digestBytes (sha1Result context).2.messageDigest))
  else none

end FishServer
