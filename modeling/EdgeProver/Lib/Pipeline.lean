import Mathlib.Data.List.Basic
import EdgeProver.Lib.Progress

/-! A producer and a consumer on either side of a bounded channel, against the two one after the other: the consumer
takes every item that the producer has. -/
namespace Pipeline

variable {X A R Y E L : Type*}

/-- What a producer does next; `L` is what it says to others meanwhile. -/
inductive Move (X A R L : Type*) where
  | work (said : List L) (next : X)
  | send (item : A) (next : X)
  | stop (result : R)

structure Parties (X A R Y E L : Type*) where
  move : X → Move X A R L
  /-- The result of a producer from which nobody receives any more. -/
  refused : R
  consume : Y → A → Except E (Y × List L)
  capacity : Nat

inductive Producer (X R : Type*) where
  | running (x : X)
  | ended (result : R)

inductive Consumer (A Y E : Type*) where
  | waiting (y : Y)
  | busy (y : Y) (item : A)
  /-- It failed, and dropped its end of the channel. -/
  | failed (e : E)
  /-- It came to the end of the channel. -/
  | drained (y : Y)

def Consumer.isOpen : Consumer A Y E → Bool
  | waiting _ | busy _ _ => true
  | failed _ | drained _ => false

structure State (X A R Y E L : Type*) where
  producer : Producer X R
  channel : List A
  consumer : Consumer A Y E
  /-- What the producer and the consumer have said, in the order it was heard. -/
  said : List (L ⊕ L)

def State.start (x : X) (y : Y) : State X A R Y E L := ⟨.running x, [], .waiting y, []⟩

def Parties.consumed (P : Parties X A R Y E L) (s : State X A R Y E L) (y : Y) (item : A) : State X A R Y E L :=
  match P.consume y item with
  | .ok (y', said) => { s with consumer := .waiting y', said := s.said ++ said.map .inr }
  | .error e => { s with consumer := .failed e }

inductive Step (P : Parties X A R Y E L) (s : State X A R Y E L) : State X A R Y E L → Prop
  | work {x next : X} {said : List L} (h : s.producer = .running x) (hmove : P.move x = .work said next) :
      Step P s { s with producer := .running next, said := s.said ++ said.map .inl }
  | send {x next : X} {item : A} (h : s.producer = .running x) (hmove : P.move x = .send item next)
      (hroom : s.channel.length < P.capacity) (hopen : s.consumer.isOpen = true) :
      Step P s { s with producer := .running next, channel := s.channel ++ [item] }
  | refused {x next : X} {item : A} (h : s.producer = .running x) (hmove : P.move x = .send item next)
      (hclosed : s.consumer.isOpen = false) : Step P s { s with producer := .ended P.refused }
  | stop {x : X} {result : R} (h : s.producer = .running x) (hmove : P.move x = .stop result) :
      Step P s { s with producer := .ended result }
  | receive {y : Y} {item : A} {rest : List A} (h : s.consumer = .waiting y) (hitem : s.channel = item :: rest) :
      Step P s { s with channel := rest, consumer := .busy y item }
  | consume {y : Y} {item : A} (h : s.consumer = .busy y item) : Step P s (P.consumed s y item)
  | drain {y : Y} {result : R} (h : s.consumer = .waiting y) (hempty : s.channel = [])
      (hended : s.producer = .ended result) : Step P s { s with consumer := .drained y }

/-- The producer by itself: in so many moves it sends these items, says this and comes to this result. -/
inductive Produces (P : Parties X A R Y E L) : X → Nat → List A → List L → R → Prop
  | stop {x : X} {result : R} (hmove : P.move x = .stop result) : Produces P x 1 [] [] result
  | work {x next : X} {said rest : List L} {moves : Nat} {items : List A} {result : R}
      (hmove : P.move x = .work said next) (h : Produces P next moves items rest result) :
      Produces P x (moves + 1) items (said ++ rest) result
  | send {x next : X} {item : A} {said : List L} {moves : Nat} {items : List A} {result : R}
      (hmove : P.move x = .send item next) (h : Produces P next moves items said result) :
      Produces P x (moves + 1) (item :: items) said result

section
variable (P : Parties X A R Y E L)

/-- The consumer by itself, up to its first failure. -/
def Parties.consumeAll (y : Y) : List A → Except E (Y × List L)
  | [] => .ok (y, [])
  | item :: items =>
    match P.consume y item with
    | .error e => .error e
    | .ok (y', said) => (consumeAll y' items).map fun end_ => (end_.1, said ++ end_.2)

variable {P} {y y' : Y} {items rest : List A} {said : List L} {e : E}

private theorem consumeAll_append_ok (h : P.consumeAll y items = .ok (y', said)) :
    P.consumeAll y (items ++ rest) = (P.consumeAll y' rest).map fun end_ => (end_.1, said ++ end_.2) := by
  induction items generalizing y said with
  | nil =>
    obtain ⟨rfl, rfl⟩ := Prod.mk.inj (Except.ok.inj h)
    rw [List.nil_append]
    cases P.consumeAll y rest <;> rfl
  | cons item items ih =>
    rw [List.cons_append, Parties.consumeAll]
    rw [Parties.consumeAll] at h
    cases hitem : P.consume y item with
    | error e =>
      rw [hitem] at h
      cases h
    | ok next =>
      rw [hitem] at h
      dsimp only at h ⊢
      cases hitems : P.consumeAll next.1 items with
      | error e =>
        rw [hitems] at h
        cases h
      | ok last =>
        rw [hitems] at h
        obtain ⟨rfl, rfl⟩ := Prod.mk.inj (Except.ok.inj h)
        rw [ih hitems]
        cases P.consumeAll last.1 rest with
        | error e => rfl
        | ok end_ =>
          show Except.ok (_, next.2 ++ (last.2 ++ end_.2)) = Except.ok (_, next.2 ++ last.2 ++ end_.2)
          rw [List.append_assoc]

private theorem consumeAll_append_error (h : P.consumeAll y items = .error e) :
    P.consumeAll y (items ++ rest) = .error e := by
  induction items generalizing y with
  | nil => cases h
  | cons item items ih =>
    rw [List.cons_append, Parties.consumeAll]
    rw [Parties.consumeAll] at h
    cases hitem : P.consume y item with
    | error e' =>
      rw [hitem] at h
      exact h
    | ok next =>
      rw [hitem] at h
      dsimp only at h ⊢
      cases hitems : P.consumeAll next.1 items with
      | ok last =>
        rw [hitems] at h
        cases h
      | error e' =>
        rw [hitems] at h
        obtain rfl : e' = e := Except.error.inj h
        rw [ih hitems]
        rfl

end
def State.producerSaid (s : State X A R Y E L) : List L := s.said.filterMap Sum.getLeft?

def State.consumerSaid (s : State X A R Y E L) : List L := s.said.filterMap Sum.getRight?

private theorem getLeft_inl (said : List L) : (said.map (Sum.inl : L → L ⊕ L)).filterMap Sum.getLeft? = said := by
  rw [List.filterMap_map]
  exact List.filterMap_some

private theorem getLeft_inr (said : List L) : (said.map (Sum.inr : L → L ⊕ L)).filterMap Sum.getLeft? = [] := by
  rw [List.filterMap_map]
  exact List.filterMap_eq_nil_iff.mpr fun _ _ => rfl

private theorem getRight_inr (said : List L) : (said.map (Sum.inr : L → L ⊕ L)).filterMap Sum.getRight? = said := by
  rw [List.filterMap_map]
  exact List.filterMap_some

private theorem getRight_inl (said : List L) : (said.map (Sum.inl : L → L ⊕ L)).filterMap Sum.getRight? = [] := by
  rw [List.filterMap_map]
  exact List.filterMap_eq_nil_iff.mpr fun _ _ => rfl

section
variable (P : Parties X A R Y E L) (y : Y) (items : List A) (log : List L) (result : R)

/-- The producer, after it has sent these items. -/
def ProducerAt (sent : List A) (s : State X A R Y E L) : Prop :=
  match s.producer with
  | .running x => ∃ moves rest said, Produces P x moves rest said result ∧ items = sent ++ rest ∧
      log = s.producerSaid ++ said
  | .ended r => (r = result ∧ items = sent ∧ log = s.producerSaid) ∨
      r = P.refused ∧ sent <+: items ∧ ∃ e, s.consumer = .failed e

/-- The consumer, after these items were sent. -/
def ConsumerAt (sent : List A) (s : State X A R Y E L) : Prop :=
  match s.consumer with
  | .waiting y' => ∃ taken, sent = taken ++ s.channel ∧ P.consumeAll y taken = .ok (y', s.consumerSaid)
  | .busy y' item => ∃ taken, sent = taken ++ item :: s.channel ∧ P.consumeAll y taken = .ok (y', s.consumerSaid)
  | .failed e => P.consumeAll y sent = .error e
  | .drained y' => P.consumeAll y sent = .ok (y', s.consumerSaid) ∧ s.producer = .ended result

/-- The pipeline is on its way to what the producer and the consumer come to by themselves. -/
def Along (s : State X A R Y E L) : Prop := ∃ sent, ProducerAt P items log result sent s ∧ ConsumerAt P y result sent s

variable {P y items log result} {s s' : State X A R Y E L} {sent : List A}

private theorem ProducerAt.of_open (h : ProducerAt P items log result sent s) (hopen : ∀ e, s.consumer ≠ .failed e)
    (hproducer : s'.producer = s.producer) (hsaid : s'.producerSaid = s.producerSaid) :
    ProducerAt P items log result sent s' := by
  unfold ProducerAt at h ⊢
  rw [hproducer, hsaid]
  split at h
  · exact h
  · rcases h with hended | ⟨-, -, e, hfailed⟩
    · exact .inl hended
    · exact absurd hfailed (hopen e)

private theorem ConsumerAt.of_running {x : X} (h : ConsumerAt P y result sent s) (hrunning : s.producer = .running x)
    (hconsumer : s'.consumer = s.consumer) (hchannel : s'.channel = s.channel)
    (hsaid : s'.consumerSaid = s.consumerSaid) : ConsumerAt P y result sent s' := by
  unfold ConsumerAt at h ⊢
  rw [hconsumer, hchannel, hsaid]
  split at h
  · exact h
  · exact h
  · exact h
  · cases hrunning.symm.trans h.2

private theorem along_start {x : X} {moves : Nat} (h : Produces P x moves items log result) :
    Along P y items log result (.start x y) :=
  ⟨[], ⟨moves, items, log, h, rfl, rfl⟩, [], rfl, rfl⟩

theorem Along.step (h : Along P y items log result s) (hstep : Step P s s') : Along P y items log result s' := by
  obtain ⟨sent, hproducer, hconsumer⟩ := h
  cases hstep with
  | @work x next said hrunning hmove =>
    rw [ProducerAt, hrunning] at hproducer
    obtain ⟨moves, rest, later, hproduces, hitems, hlog⟩ := hproducer
    cases hproduces with
    | stop hm => cases hmove.symm.trans hm
    | send hm hnext => cases hmove.symm.trans hm
    | work hm hnext =>
      cases hmove.symm.trans hm
      refine ⟨sent, ⟨_, rest, _, hnext, hitems, ?_⟩, hconsumer.of_running hrunning rfl rfl ?_⟩
      · rw [hlog, State.producerSaid, State.producerSaid, List.filterMap_append, getLeft_inl, List.append_assoc]
      · rw [State.consumerSaid, State.consumerSaid, List.filterMap_append, getRight_inl, List.append_nil]
  | @send x next item hrunning hmove hroom hopen =>
    rw [ProducerAt, hrunning] at hproducer
    obtain ⟨moves, rest, later, hproduces, hitems, hlog⟩ := hproducer
    cases hproduces with
    | stop hm => cases hmove.symm.trans hm
    | work hm hnext => cases hmove.symm.trans hm
    | send hm hnext =>
      cases hmove.symm.trans hm
      refine ⟨sent ++ [item], ⟨_, _, later, hnext, ?_, hlog⟩, ?_⟩
      · rw [hitems, List.append_assoc]
        rfl
      · unfold ConsumerAt at hconsumer ⊢
        dsimp only
        cases hat : s.consumer with
        | waiting y' =>
          rw [hat] at hconsumer
          obtain ⟨taken, hsent, htaken⟩ := hconsumer
          exact ⟨taken, by rw [hsent, List.append_assoc], htaken⟩
        | busy y' held =>
          rw [hat] at hconsumer
          obtain ⟨taken, hsent, htaken⟩ := hconsumer
          exact ⟨taken, by rw [hsent, List.append_assoc, List.cons_append], htaken⟩
        | failed e | drained y' =>
          rw [hat] at hopen
          cases hopen
  | @refused x next item hrunning hmove hclosed =>
    rw [ProducerAt, hrunning] at hproducer
    obtain ⟨moves, rest, later, -, hitems, -⟩ := hproducer
    cases hat : s.consumer with
    | waiting y' | busy y' held =>
      rw [hat] at hclosed
      cases hclosed
    | failed e =>
      exact ⟨sent, .inr ⟨rfl, ⟨rest, hitems.symm⟩, e, rfl⟩, hconsumer.of_running hrunning hat.symm rfl rfl⟩
    | drained y' =>
      rw [ConsumerAt, hat] at hconsumer
      cases hrunning.symm.trans hconsumer.2
  | @stop x r hrunning hmove =>
    rw [ProducerAt, hrunning] at hproducer
    obtain ⟨moves, rest, later, hproduces, hitems, hlog⟩ := hproducer
    cases hproduces with
    | work hm hnext => cases hmove.symm.trans hm
    | send hm hnext => cases hmove.symm.trans hm
    | stop hm =>
      cases hmove.symm.trans hm
      rw [List.append_nil] at hitems hlog
      exact ⟨sent, .inl ⟨rfl, hitems, hlog⟩, hconsumer.of_running hrunning rfl rfl rfl⟩
  | @receive y' item rest hwaiting hitem =>
    rw [ConsumerAt, hwaiting] at hconsumer
    obtain ⟨taken, hsent, htaken⟩ := hconsumer
    have hopen : ∀ e, s.consumer ≠ .failed e := fun e hfailed => by cases hwaiting.symm.trans hfailed
    exact ⟨sent, hproducer.of_open hopen rfl rfl, taken, by rw [hsent, hitem], htaken⟩
  | @consume y' item hbusy =>
    rw [ConsumerAt, hbusy] at hconsumer
    obtain ⟨taken, hsent, htaken⟩ := hconsumer
    have hopen : ∀ e, s.consumer ≠ .failed e := fun e hfailed => by cases hbusy.symm.trans hfailed
    have hone : P.consumeAll y (taken ++ [item]) =
        (P.consumeAll y' [item]).map fun end_ => (end_.1, s.consumerSaid ++ end_.2) := consumeAll_append_ok htaken
    have hsplit : sent = (taken ++ [item]) ++ s.channel := by
      rw [hsent, List.append_assoc]
      rfl
    unfold Parties.consumed
    cases hitem : P.consume y' item with
    | error e =>
      simp only [Parties.consumeAll, hitem, Except.map] at hone
      refine ⟨sent, hproducer.of_open hopen rfl rfl, ?_⟩
      show P.consumeAll y sent = .error e
      rw [hsplit]
      exact consumeAll_append_error hone
    | ok next =>
      simp only [Parties.consumeAll, hitem, Except.map, List.append_nil] at hone
      refine ⟨sent, hproducer.of_open hopen rfl ?_, taken ++ [item], hsplit, ?_⟩
      · rw [State.producerSaid, State.producerSaid, List.filterMap_append, getLeft_inr, List.append_nil]
      · rw [hone, State.consumerSaid, State.consumerSaid, List.filterMap_append, getRight_inr]
  | @drain y' r hwaiting hempty hended =>
    have hopen : ∀ e, s.consumer ≠ .failed e := fun e hfailed => by cases hwaiting.symm.trans hfailed
    rw [ConsumerAt, hwaiting, hempty] at hconsumer
    obtain ⟨taken, hsent, htaken⟩ := hconsumer
    rw [List.append_nil] at hsent
    refine ⟨sent, hproducer.of_open hopen rfl rfl, hsent ▸ htaken, ?_⟩
    rw [ProducerAt, hended] at hproducer
    obtain ⟨rfl, -, -⟩ | ⟨-, -, e, hfailed⟩ := hproducer
    · exact hended
    · exact absurd hfailed (hopen e)

theorem along_of_run {x : X} {moves : Nat} (h : Produces P x moves items log result)
    (hrun : Relation.ReflTransGen (Step P) (.start x y) s) : Along P y items log result s := by
  induction hrun with
  | refl => exact along_start h
  | tail _ hstep ih => exact ih.step hstep

/-- A consumer that fails does so as it would by itself. -/
theorem Along.of_failed (h : Along P y items log result s) {e : E} (hfailed : s.consumer = .failed e) :
    P.consumeAll y items = .error e ∧ ∀ r, s.producer = .ended r → r = result ∨ r = P.refused := by
  obtain ⟨sent, hproducer, hconsumer⟩ := h
  rw [ConsumerAt, hfailed] at hconsumer
  unfold ProducerAt at hproducer
  split at hproducer
  · next x hrunning =>
    obtain ⟨moves, rest, said, -, rfl, -⟩ := hproducer
    refine ⟨consumeAll_append_error hconsumer, fun r hended => ?_⟩
    cases hrunning.symm.trans hended
  · next r hended =>
    have hstart : sent <+: items ∧ (r = result ∨ r = P.refused) := by
      rcases hproducer with ⟨hr, rfl, -⟩ | ⟨hr, hstart, -⟩
      · exact ⟨List.prefix_refl _, .inl hr⟩
      · exact ⟨hstart, .inr hr⟩
    obtain ⟨⟨rest, rfl⟩, hr⟩ := hstart
    refine ⟨consumeAll_append_error hconsumer, fun r' hended' => ?_⟩
    obtain rfl := Producer.ended.inj (hended.symm.trans hended')
    exact hr

/-- A consumer that comes to the end of the channel has what it would have by itself, and so has the producer. -/
theorem Along.of_drained (h : Along P y items log result s) {y' : Y} (hdrained : s.consumer = .drained y') :
    P.consumeAll y items = .ok (y', s.consumerSaid) ∧ s.producer = .ended result ∧ s.producerSaid = log := by
  obtain ⟨sent, hproducer, hconsumer⟩ := h
  rw [ConsumerAt, hdrained] at hconsumer
  obtain ⟨hconsumed, hended⟩ := hconsumer
  rw [ProducerAt, hended] at hproducer
  obtain ⟨-, rfl, hlog⟩ | ⟨-, -, e, hfailed⟩ := hproducer
  · exact ⟨hconsumed, hended, hlog.symm⟩
  · cases hdrained.symm.trans hfailed

/-- What a consumer has before it: an item outweighs its own end. -/
def Consumer.rank : Consumer A Y E → Nat
  | waiting _ => 1
  | busy _ _ => 2
  | failed _ | drained _ => 0

/-- The moves that are left, of the producer and of the consumer. -/
def Weighs (P : Parties X A R Y E L) (s : State X A R Y E L) (weight : Nat) : Prop :=
  ∃ moves, weight = 3 * moves + 2 * s.channel.length + s.consumer.rank ∧
    match s.producer with
    | .running x => ∃ items said result, Produces P x moves items said result
    | .ended _ => moves = 0

theorem Weighs.step {weight : Nat} (h : Weighs P s weight) (hstep : Step P s s') :
    ∃ weight' < weight, Weighs P s' weight' := by
  obtain ⟨moves, rfl, hproducer⟩ := h
  cases hstep with
  | @work x next said hrunning hmove =>
    rw [hrunning] at hproducer
    obtain ⟨items, later, result, hproduces⟩ := hproducer
    cases hproduces with
    | stop hm => cases hmove.symm.trans hm
    | send hm hnext => cases hmove.symm.trans hm
    | @work _ _ _ _ moves items result hm hnext =>
      cases hmove.symm.trans hm
      refine ⟨_, ?_, moves, rfl, items, _, result, hnext⟩
      dsimp only
      omega
  | @send x next item hrunning hmove hroom hopen =>
    rw [hrunning] at hproducer
    obtain ⟨items, later, result, hproduces⟩ := hproducer
    cases hproduces with
    | stop hm => cases hmove.symm.trans hm
    | work hm hnext => cases hmove.symm.trans hm
    | @send _ _ _ _ moves items result hm hnext =>
      cases hmove.symm.trans hm
      refine ⟨_, ?_, moves, rfl, items, _, result, hnext⟩
      dsimp only
      rw [List.length_append, List.length_singleton]
      omega
  | @refused x next item hrunning hmove hclosed =>
    rw [hrunning] at hproducer
    obtain ⟨items, later, result, hproduces⟩ := hproducer
    cases hproduces with
    | stop hm => cases hmove.symm.trans hm
    | work hm hnext => cases hmove.symm.trans hm
    | send hm hnext =>
      refine ⟨_, ?_, 0, rfl, rfl⟩
      dsimp only
      omega
  | @stop x r hrunning hmove =>
    rw [hrunning] at hproducer
    obtain ⟨items, later, result, hproduces⟩ := hproducer
    cases hproduces with
    | work hm hnext => cases hmove.symm.trans hm
    | send hm hnext => cases hmove.symm.trans hm
    | stop hm =>
      refine ⟨_, ?_, 0, rfl, rfl⟩
      dsimp only
      omega
  | @receive y' item rest hwaiting hitem =>
    refine ⟨_, ?_, moves, rfl, hproducer⟩
    rw [hitem, hwaiting, List.length_cons, Consumer.rank, Consumer.rank]
    dsimp only
    omega
  | @consume y' item hbusy =>
    unfold Parties.consumed
    cases P.consume y' item with
    | error e =>
      refine ⟨_, ?_, moves, rfl, hproducer⟩
      rw [hbusy, Consumer.rank, Consumer.rank]
      dsimp only
      omega
    | ok next =>
      refine ⟨_, ?_, moves, rfl, hproducer⟩
      rw [hbusy, Consumer.rank, Consumer.rank]
      dsimp only
      omega
  | @drain y' r hwaiting hempty hended =>
    refine ⟨_, ?_, moves, rfl, hproducer⟩
    rw [hwaiting, Consumer.rank, Consumer.rank]
    dsimp only
    omega

/-- Every run from here is finite. -/
theorem ends_of_weighs {weight : Nat} (h : Weighs P s weight) : Progress.Ends (Step P) s :=
  Progress.ends_of_weight (fun _ _ _ hw hstep => hw.step hstep) h

theorem weighs_of_run {x : X} {moves : Nat} (h : Produces P x moves items log result)
    (hrun : Relation.ReflTransGen (Step P) (.start x y) s) : ∃ weight, Weighs P s weight := by
  induction hrun with
  | refl => exact ⟨_, moves, rfl, items, log, result, h⟩
  | tail _ hstep ih =>
    obtain ⟨weight, hweight⟩ := ih
    obtain ⟨weight', -, hweight'⟩ := hweight.step hstep
    exact ⟨weight', hweight'⟩

/-- With room for an item in the channel, somebody can go on until both have come to their ends. -/
theorem ended_of_stuck (hcapacity : 0 < P.capacity) (hstuck : ∀ next, ¬ Step P s next) :
    (∃ r, s.producer = .ended r) ∧ ((∃ e, s.consumer = .failed e) ∨ ∃ y', s.consumer = .drained y') := by
  have hchannel : ∀ y', s.consumer = .waiting y' → s.channel = [] := by
    intro y' hwaiting
    by_contra hne
    obtain ⟨item, rest, hitem⟩ := List.exists_cons_of_ne_nil hne
    exact hstuck _ (.receive hwaiting hitem)
  have hidle : ∀ y' item, s.consumer ≠ .busy y' item := fun y' item hbusy => hstuck _ (.consume hbusy)
  have hproducer : ∃ r, s.producer = .ended r := by
    cases hat : s.producer with
    | ended r => exact ⟨r, rfl⟩
    | running x =>
      exfalso
      cases hmove : P.move x with
      | work said next => exact hstuck _ (.work hat hmove)
      | stop r => exact hstuck _ (.stop hat hmove)
      | send item next =>
        cases hconsumer : s.consumer with
        | waiting y' =>
          refine hstuck _ (.send hat hmove ?_ (by rw [hconsumer]; rfl))
          rw [hchannel y' hconsumer]
          exact hcapacity
        | busy y' held => exact hidle y' held hconsumer
        | failed e | drained y' => exact hstuck _ (.refused hat hmove (by rw [hconsumer]; rfl))
  obtain ⟨r, hended⟩ := hproducer
  refine ⟨⟨r, hended⟩, ?_⟩
  cases hat : s.consumer with
  | waiting y' => exact absurd (.drain hat (hchannel y' hat) hended) (hstuck _)
  | busy y' item => exact absurd hat (hidle y' item)
  | failed e => exact .inl ⟨e, rfl⟩
  | drained y' => exact .inr ⟨y', rfl⟩

end
end Pipeline
