import ForkChoice.Table

/-!
# ForkChoice — latest messages

The last vote of each validator. A vote replaces another one only if its epoch is greater, so of
several votes of one epoch the first one observed stays.

* `LatestMessages.merge` — one more vote, `LatestMessages.mergeAll` — the votes of several
  validators for one message;
* `LatestMessages.get?` — the vote of a validator;
* `LatestMessages.voteCounts` — the number of validators that vote for each root.
-/

namespace ForkChoice

/-- The last vote of each validator that has voted. -/
structure LatestMessages where
  messages : Table ValidatorIndex LatestMessage

namespace LatestMessages

instance : Inhabited LatestMessages := ⟨⟨∅⟩⟩

/-- No votes. -/
def empty : LatestMessages := ⟨∅⟩

/-- The vote of a validator. -/
def get? (m : LatestMessages) (index : ValidatorIndex) : Option LatestMessage :=
  m.messages[index]?

/-- Whether a message takes the place of the one that a validator has, if it has one. -/
def replaces (message : LatestMessage) : Option LatestMessage → Bool
  | none => true
  | some current => current.epoch < message.epoch

/-- Records a vote if it takes the place of the present one. -/
def merge (m : LatestMessages) (index : ValidatorIndex) (message : LatestMessage) :
    LatestMessages :=
  if replaces message (m.get? index) then ⟨m.messages.insert index message⟩ else m

/-- Records votes of several validators in order. -/
def extend (m : LatestMessages) (votes : List (ValidatorIndex × LatestMessage)) :
    LatestMessages :=
  votes.foldl (fun m (index, message) => m.merge index message) m

/-- Records the votes of several validators for one message. -/
def mergeAll (m : LatestMessages) (indices : List ValidatorIndex) (message : LatestMessage) :
    LatestMessages :=
  indices.foldl (fun m index => m.merge index message) m

/-- The validators with their votes, by index. -/
def toList (m : LatestMessages) : List (ValidatorIndex × LatestMessage) := m.messages.toList

/-- The number of validators that have voted. -/
def size (m : LatestMessages) : Nat := m.messages.size

/-- Whether no validator has voted. -/
def isEmpty (m : LatestMessages) : Bool := m.messages.isEmpty

instance : BEq LatestMessages := ⟨fun m m' => m.toList == m'.toList⟩

/-- The number of validators that vote for each root, by root. -/
def voteCounts (m : LatestMessages) : List (Root × Nat) :=
  let counts : Table Root Nat := m.toList.foldl
    (fun counts (_, message) => counts.alter message.root fun n => some (n.getD 0 + 1)) ∅
  counts.toList

end LatestMessages

end ForkChoice
