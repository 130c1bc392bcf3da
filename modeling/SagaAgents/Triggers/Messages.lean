/-
  SagaAgents.Triggers.Messages — `RedisListener._listener_loop`
  (`triggers/redis_listener.py`): from what `pubsub.listen()` yields to marked debouncers.

  An item is a dict. The loop takes those of type `message`, decodes and parses their
  data, and hands the topic to `_handle_message`, which goes through the triggers in order
  and marks those that have it. Each of these stages can raise: bytes that are not UTF-8,
  a text that is not JSON, a value that is no mapping, a topic that cannot be hashed.
  An exception leaves what has been marked so far; the loop logs it and goes on.

  Proved:
  - `malformed_isolated`: the loop gets through every sequence of items, and each trigger
    ends up as if only the items it accepts had been delivered, at their times. A topic
    that is missing counts as the empty topic: `missing_topic_marks`.
  - `listener_messages`: the loop delivers messages as `RedisListener.step` takes them.
-/

import SagaAgents.Lib.Json
import SagaAgents.Triggers.RedisListener

namespace SagaAgents.Triggers.Messages

open Lib
open RedisListener (TriggerState)

/-! ## Items -/

inductive Data where
  | bytes (bs : ByteArray)
  | str (s : String)

/-- What `pubsub.listen()` yields: the values under `type` and `data`, if any. -/
structure Item where
  type : Option Json
  data : Option Data

def isText (s : String) : Json → Bool
  | .str t => t == Text.ofString s
  | _ => false

def Item.isMessage (item : Item) : Bool := item.type.any (isText "message")

/-- `data.decode()`. -/
def Data.decode : Data → Option String
  | .bytes bs => String.fromUTF8? bs
  | .str s => some s

/-- What `json.loads` reads from the data of an item; `none` if decoding or parsing raises, as
    it does at an integer of more than 4300 digits. -/
def Item.load (item : Item) : Option Json :=
  ((item.data.getD (.bytes ByteArray.empty)).decode).bind fun s => Json.loads s.toList

/-- `msg.get(key)`. -/
def member (key : String) (ms : List (Text × Json)) : Option Json :=
  (ms.find? fun m => m.1 == Text.ofString key).map Prod.snd

/-- `msg.get("topic", "")`; `none` if the message is no mapping. -/
def topicOf : Json → Option Json
  | .obj ms => some ((member "topic" ms).getD (.str []))
  | _ => none

/-! ## The loop -/

variable {T : Type}

/-- The topic of the trigger that equals `topic`, if any; a value that cannot be hashed
    raises (the outer `none`). -/
def inTopics (topic : Json) (topics : List String) : Option (Option String) :=
  match topic with
  | .list _ | .obj _ => none
  | .str t => some (topics.find? fun s => Text.ofString s == t)
  | .null | .bool _ | .int _ | .float _ => some none

/-- `_handle_message`: the triggers it leaves, and whether it raises. -/
def handleMessage (now : T) (topic : Json) : List (TriggerState T) → List (TriggerState T) × Bool
  | [] => ([], false)
  | s :: states =>
    match inTopics topic s.topics with
    | none => (s :: states, true)
    | some none => (s :: (handleMessage now topic states).1, (handleMessage now topic states).2)
    | some (some t) => (s.handle now t :: (handleMessage now topic states).1, (handleMessage now topic states).2)

/-- One turn of the loop: the triggers, and whether an exception was caught. -/
def turn (now : T) (item : Item) (states : List (TriggerState T)) : List (TriggerState T) × Bool :=
  if !item.isMessage then (states, false)
  else
    match item.load.bind topicOf with
    | none => (states, true)
    | some topic => handleMessage now topic states

/-- `_listener_loop` over a sequence of items: the triggers at its end, and for each turn
    it made whether it caught an exception. -/
def listenerLoop : List (T × Item) → List (TriggerState T) → List (TriggerState T) × List Bool
  | [], states => (states, [])
  | (now, item) :: items, states =>
    let t := turn now item states
    let r := listenerLoop items t.1
    (r.1, t.2 :: r.2)

/-! ## What an item delivers -/

/-- The string topic of a message that is a mapping: `missing` where it has none. -/
def Item.topic (missing : Option Text) (item : Item) : Option Text :=
  if item.isMessage then
    match item.load with
    | some (.obj ms) =>
      match member "topic" ms with
      | some (.str t) => some t
      | some _ => none
      | none => missing
    | _ => none
  else none

/-- The trigger's topic that the item names. -/
def Item.accepted (missing : Option Text) (item : Item) (topics : List String) : Option String :=
  (item.topic missing).bind fun t => topics.find? fun s => Text.ofString s == t

/-- Only the items the trigger accepts are delivered to it. -/
def deliver (missing : Option Text) : List (T × Item) → TriggerState T → TriggerState T
  | [], s => s
  | (now, item) :: items, s =>
    match item.accepted missing s.topics with
    | none => deliver missing items s
    | some t => deliver missing items (s.handle now t)

/-! ## One turn -/

/-- What a hashable topic does to one trigger. -/
def marked (now : T) (topic : Option Text) (s : TriggerState T) : TriggerState T :=
  match topic.bind fun t => s.topics.find? fun x => Text.ofString x == t with
  | none => s
  | some t => s.handle now t

theorem marked_none (now : T) (states : List (TriggerState T)) : states.map (marked now none) = states := by
  induction states with
  | nil => rfl
  | cons s states ih => rw [List.map_cons, ih]; rfl

theorem handleMessage_str (now : T) (t : Text) (states : List (TriggerState T)) :
    handleMessage now (.str t) states = (states.map (marked now (some t)), false) := by
  induction states with
  | nil => rfl
  | cons s states ih =>
    simp only [handleMessage, inTopics, ih, List.map_cons, marked, Option.bind_some]
    cases s.topics.find? fun x => Text.ofString x == t <;> rfl

/-- A topic that is no string marks nothing: if it cannot be hashed, the first test raises. -/
theorem handleMessage_other {topic : Json} (h : ∀ t, topic ≠ .str t) (now : T) (states : List (TriggerState T)) :
    (handleMessage now topic states).1 = states := by
  induction states with
  | nil => rfl
  | cons s states ih =>
    cases topic with
    | str t => exact absurd rfl (h t)
    | list vs => rfl
    | obj ms => rfl
    | null => simp only [handleMessage, inTopics, ih]
    | bool b => simp only [handleMessage, inTopics, ih]
    | int i => simp only [handleMessage, inTopics, ih]
    | float x => simp only [handleMessage, inTopics, ih]

/-- A turn marks the triggers that have the item's topic, and no others. -/
theorem turn_marks (now : T) (item : Item) (states : List (TriggerState T)) :
    (turn now item states).1 = states.map (marked now (item.topic (some []))) := by
  unfold turn Item.topic
  cases item.isMessage with
  | false => exact (marked_none now states).symm
  | true =>
    simp only [Bool.not_true, Bool.false_eq_true, if_false, if_true]
    cases item.load with
    | none => exact (marked_none now states).symm
    | some v =>
      cases v with
      | obj ms =>
        simp only [Option.bind_some, topicOf]
        cases hm : member "topic" ms with
        | none => rw [Option.getD_none, handleMessage_str]
        | some topic =>
          cases topic with
          | str t => rw [Option.getD_some, handleMessage_str]
          | _ =>
            simp only [Option.getD_some, marked_none]
            exact handleMessage_other (fun t e => by cases e) now states
      | _ => exact (marked_none now states).symm

theorem deliver_cons (missing : Option Text) (now : T) (item : Item) (items : List (T × Item)) (s : TriggerState T) :
    deliver missing ((now, item) :: items) s = deliver missing items (marked now (item.topic missing) s) := by
  simp only [deliver, marked, Item.accepted]
  split <;> rfl

/-! ## Whole sequences -/

/-- The loop gets through the whole sequence, and each trigger ends up as if only the
    items it accepts had been delivered. -/
theorem malformed_isolated (items : List (T × Item)) (states : List (TriggerState T)) :
    (listenerLoop items states).2.length = items.length ∧
      (listenerLoop items states).1 = states.map (deliver (some []) items) := by
  induction items generalizing states with
  | nil => exact ⟨rfl, (List.map_id states).symm⟩
  | cons p items ih =>
    obtain ⟨now, item⟩ := p
    obtain ⟨hlen, hstates⟩ := ih (turn now item states).1
    refine ⟨by simp only [listenerLoop, List.length_cons, hlen], ?_⟩
    show (listenerLoop items (turn now item states).1).1 = _
    rw [hstates, turn_marks, List.map_map]
    exact List.map_congr_left fun s _ => (deliver_cons (some []) now item items s).symm

/-- A message whose data is the empty mapping. -/
def emptyMessage : Item := ⟨some (.str (Text.ofString "message")), some (.str "\x7b\x7d")⟩

/-- A trigger on the empty topic. -/
def emptyTrigger : TriggerState Int := { agentId := "a", topics := [""], debouncer := { delay := 1 } }

/-- A message without a topic marks it. -/
theorem missing_topic_marks :
    emptyMessage.load = some (.obj []) ∧ (listenerLoop [(0, emptyMessage)] [emptyTrigger]).1 = [emptyTrigger.handle 0 ""] ∧
      [emptyTrigger].map (deliver none [(0, emptyMessage)]) = [emptyTrigger] ∧ emptyTrigger.handle 0 "" ≠ emptyTrigger := by
  refine ⟨rfl, ?_, ?_, ?_⟩ <;> decide

/-! ## As messages of the listener -/

theorem ofString_inj {s t : String} (h : Text.ofString s = Text.ofString t) : s = t := by
  have hinj : Function.Injective CodePoint.ofChar := by
    intro c d e
    have hlt : ∀ c : Char, c.toNat < 0x110000 := fun c => by
      rcases c.valid with h | h
      · show c.val.toNat < _
        omega
      · exact h.2
    have e : c.toNat % 0x110000 = d.toNat % 0x110000 := congrArg Fin.val e
    rw [Nat.mod_eq_of_lt (hlt c), Nat.mod_eq_of_lt (hlt d)] at e
    exact Char.toNat_inj.mp e
  exact String.toList_inj.mp (List.map_injective_iff.mpr hinj h)

theorem find_topic (t : String) (topics : List String) :
    (topics.find? fun s => Text.ofString s == Text.ofString t) = if t ∈ topics then some t else none := by
  induction topics with
  | nil => rfl
  | cons s topics ih =>
    by_cases e : s = t
    · simp [e]
    · have hne : (Text.ofString s == Text.ofString t) = false := beq_false_of_ne fun h => e (ofString_inj h)
      rw [List.find?_cons, hne, ih]
      simp [Ne.symm e]

theorem marked_ofString (now : T) (t : String) (s : TriggerState T) :
    marked now (some (Text.ofString t)) s = s.handle now t := by
  simp only [marked, Option.bind_some, find_topic, TriggerState.handle]
  split <;> rename_i h
  · split at h
    · cases h
    · rename_i hn
      rw [if_neg hn]
  · split at h
    · cases h
      rfl
    · cases h

/-- A turn is a message that some trigger has the topic of, or changes nothing. -/
theorem turn_message (now : T) (item : Item) (states : List (TriggerState T)) :
    (turn now item states).1 = states ∨ ∃ t, (turn now item states).1 = states.map (·.handle now t) := by
  rw [turn_marks]
  cases ht : item.topic (some []) with
  | none => exact Or.inl (marked_none now states)
  | some x =>
    cases hf : (states.flatMap (·.topics)).find? fun s => Text.ofString s == x with
    | some t =>
      have e : Text.ofString t = x := by simpa using List.find?_some hf
      subst e
      exact Or.inr ⟨t, List.map_congr_left fun s _ => marked_ofString now t s⟩
    | none =>
      refine Or.inl ?_
      rw [List.map_congr_left (g := id) fun s hs => ?_, List.map_id]
      have : (s.topics.find? fun s => Text.ofString s == x) = none := by
        rw [List.find?_eq_none] at hf ⊢
        exact fun t ht => hf t (List.mem_flatMap.mpr ⟨s, hs, ht⟩)
      simp only [marked, Option.bind_some, this]
      rfl

/-- The items arrive in the order of their times, none before `now`. -/
def InOrder [LE T] : T → List (T × Item) → Prop
  | _, [] => True
  | now, (t, _) :: items => now ≤ t ∧ InOrder t items

/-- Between two turns of the tick loop, the listener loop is a run of the listener
    machine. -/
theorem listener_messages [CommRing T] [LinearOrder T] (items : List (T × Item)) (s : RedisListener.St T)
    (ho : InOrder s.now items) :
    ∃ t, Run RedisListener.step (fun _ _ => True) s t ∧ t.states = (listenerLoop items s.states).1 ∧ t.loop = s.loop ∧
      t.subs = s.subs := by
  induction items generalizing s with
  | nil => exact ⟨s, .refl s, rfl, rfl, rfl⟩
  | cons p items ih =>
    obtain ⟨now, item⟩ := p
    obtain ⟨hn, ho⟩ := ho
    have hclock : RedisListener.step s (.clock now) = some { s with now := now } := if_pos hn
    have hturn : ∃ u, Run RedisListener.step (fun _ _ => True) { s with now := now } u ∧
        u = { s with now := now, states := (turn now item s.states).1 } := by
      rcases turn_message now item s.states with e | ⟨t, e⟩
      · exact ⟨_, .refl _, by rw [e]⟩
      · exact ⟨_, Run.single (.message t) trivial rfl, by rw [e]⟩
    obtain ⟨u, hu, rfl⟩ := hturn
    obtain ⟨t, ht, hstates, hloop, hsubs⟩ := ih { s with now := now, states := (turn now item s.states).1 } ho
    exact ⟨t, ((Run.single (.clock now) trivial hclock).trans hu).trans ht, hstates, hloop, hsubs⟩

end SagaAgents.Triggers.Messages
