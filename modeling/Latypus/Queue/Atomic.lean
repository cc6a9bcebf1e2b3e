import Latypus.Lib.Machine
import Latypus.Lib.Threads
import Latypus.Lib.Ring

/-! `queue_atomic`: a ring with two packed words, each a version and an offset, and two counters
that a producer and a consumer move by a compare-exchange to enter their critical sections. Every
atomic access of `push_back` and `pop_front` is a step of a sequentially consistent machine; a
thread's program counter holds the local variables that are live there. -/

namespace Latypus.Queue
open Lib

/-- The template arguments and the size, with what the assertions of the constructor say. -/
structure Params where
  offsetBits : Nat
  versionBits : Nat
  atomicBits : Nat
  sizeBits : Nat
  bits_le : versionBits + offsetBits ≤ atomicBits
  size_lt : sizeBits < offsetBits

namespace Params
variable (P : Params)

def sizeLimit : Nat := 2 ^ P.sizeBits

def packOffset (version offset : Nat) : Nat := version <<< P.offsetBits ||| offset

def versionOf (pack : Nat) : Nat := (pack >>> P.offsetBits) &&& (2 ^ P.versionBits - 1)

def offsetOf (pack : Nat) : Nat := pack &&& (2 ^ P.offsetBits - 1)

/-- `unpack_offsets`: the offset, when the version is that of the counter. -/
def unpackOffsets (counter pack : Nat) : Option Nat :=
  if P.versionOf pack = counter &&& (2 ^ P.versionBits - 1) then some (P.offsetOf pack) else none

/-- The difference of two words. -/
def sub (a b : Nat) : Nat := (a + 2 ^ P.atomicBits - b) % 2 ^ P.atomicBits

/-- The position of an offset in the storage. -/
def position (offset : Nat) : Nat := offset &&& (P.sizeLimit - 1)

def nextVersion (counter : Nat) : Nat := (counter + 1) &&& (2 ^ P.versionBits - 1)

/-- The word that ends a critical section. -/
def nextPack (counter offset : Nat) : Nat :=
  P.packOffset (P.nextVersion counter) ((offset + 1) &&& (2 ^ P.offsetBits - 1))

end Params

def spinLimit : Nat := 2 ^ 24

/-- Where a thread is, with its local variables. -/
inductive Pc (T : Type) where
  | idle
  | pushFront (elem : T)
  | pushCounter (elem : T) (front spin : Nat)
  | pushVersion (elem : T) (front spin counter : Nat)
  | pushExchange (elem : T) (front spin counter back : Nat)
  | pushStore (elem : T) (counter back : Nat)
  | pushPublish (elem : T) (counter back : Nat)
  | popBack
  | popCounter (back spin : Nat)
  | popVersion (back spin counter : Nat)
  | popExchange (back spin counter front : Nat)
  | popLoad (counter front : Nat)
  | popPublish (counter front : Nat) (val : T)
deriving DecidableEq, Repr

/-- The shared words and the threads. `pushed` and `popped` record the elements of the pushes that
returned true and the elements that pops took out, in the order in which the calls returned; `calls`
counts the operations. -/
structure QueueState (T : Type) where
  vec : List T
  counterBack : Nat
  versionBack : Nat
  counterFront : Nat
  versionFront : Nat
  threads : List (Pc T)
  pushed : List T
  popped : List T
  calls : Nat
deriving DecidableEq, Repr

/-- An operation is called, or a thread makes its next access; a weak compare-exchange may fail
although the word has the expected value. -/
inductive Act (T : Type) where
  | callPush (t : Nat) (elem : T)
  | callPop (t : Nat)
  | step (t : Nat) (spurious : Bool)
deriving DecidableEq, Repr

section Step
variable {T : Type}

/-- The end of the body of the push loop. -/
def pushRetry (elem : T) (front spin : Nat) : Pc T :=
  if spin + 1 < spinLimit then .pushCounter elem front (spin + 1) else .idle

def popRetry (back spin : Nat) : Pc T :=
  if spin + 1 < spinLimit then .popCounter back (spin + 1) else .idle

def QueueState.set (s : QueueState T) (t : Nat) (pc : Pc T) : QueueState T :=
  { s with threads := s.threads.set t pc }

variable (P : Params)

/-- The next access of thread `t`, which is at `pc`. -/
def stepThread (s : QueueState T) (t : Nat) (spurious : Bool) : Pc T → Option (QueueState T)
  | .idle => none
  | .pushFront elem => some (s.set t (.pushCounter elem (P.offsetOf s.versionFront) 0))
  | .pushCounter elem front spin => some (s.set t (.pushVersion elem front spin s.counterBack))
  | .pushVersion elem front spin counter =>
    match P.unpackOffsets counter s.versionBack with
    | some back =>
      -- the queue is taken to be full when the front read at the start is the back read now
      if front = back then some (s.set t .idle)
      else some (s.set t (.pushExchange elem front spin counter back))
    | none => some (s.set t (pushRetry elem front spin))
  | .pushExchange elem front spin counter back =>
    if spurious = false ∧ s.counterBack = counter then
      some { s.set t (.pushStore elem counter back) with counterBack := P.nextVersion counter }
    else some (s.set t (pushRetry elem front spin))
  | .pushStore elem counter back =>
    (store s.vec (P.position back) [elem]).map fun vec =>
      { s.set t (.pushPublish elem counter back) with vec }
  | .pushPublish elem counter back =>
    some { s.set t .idle with
      versionBack := P.nextPack counter back, pushed := s.pushed ++ [elem] }
  | .popBack => some (s.set t (.popCounter (P.offsetOf s.versionBack) 0))
  | .popCounter back spin => some (s.set t (.popVersion back spin s.counterFront))
  | .popVersion back spin counter =>
    match P.unpackOffsets counter s.versionFront with
    | some front =>
      if P.sub front back = P.sizeLimit then some (s.set t .idle)
      else some (s.set t (.popExchange back spin counter front))
    | none => some (s.set t (popRetry back spin))
  | .popExchange back spin counter front =>
    if spurious = false ∧ s.counterFront = counter then
      some { s.set t (.popLoad counter front) with counterFront := P.nextVersion counter }
    else some (s.set t (popRetry back spin))
  | .popLoad counter front =>
    (s.vec[P.position front]?).map fun val => s.set t (.popPublish counter front val)
  | .popPublish counter front val =>
    some { s.set t .idle with
      versionFront := P.nextPack counter front, popped := s.popped ++ [val] }

/-- The queue with its threads; the constructor fills the cells with `null`. -/
def machine (null : T) : Machine (QueueState T) (Act T) where
  init s := ∃ n, s = {
    vec := List.replicate P.sizeLimit null
    counterBack := 0
    versionBack := P.packOffset 0 0
    counterFront := 0
    versionFront := P.packOffset 0 P.sizeLimit
    threads := List.replicate n .idle
    pushed := []
    popped := []
    calls := 0 }
  step s
    | .callPush t elem =>
      match s.threads[t]? with
      | some .idle => some { s.set t (.pushFront elem) with calls := s.calls + 1 }
      | _ => none
    | .callPop t =>
      match s.threads[t]? with
      | some .idle => some { s.set t .popBack with calls := s.calls + 1 }
      | _ => none
    | .step t spurious => (s.threads[t]?).bind (stepThread P s t spurious)

end Step
end Latypus.Queue
