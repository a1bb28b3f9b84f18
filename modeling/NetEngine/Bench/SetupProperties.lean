import NetEngine.Bench.Setup
import NetEngine.Epoll.Chat

/-! Whether what the load generator sends fits the broadcast of the server, which
puts the sender's name before it. -/

set_option autoImplicit false

namespace NetEngine.Bench

open Epoll (chatLine nickMax)
open Traffic (blob)

/-! ## Options -/

/-- What the options can make of the settings. -/
structure Settings.Bounded (cfg : Settings) : Prop where
  conns : cfg.conns < 2 ^ 31

theorem Settings.take_bounded {cfg later : Settings} {arg : Arg} (bounded : cfg.Bounded)
    (taken : cfg.take arg = some later) : later.Bounded := by
  cases arg with
  | conns n =>
      obtain rfl := Option.some.inj taken
      exact ⟨n.toInt_lt⟩
  | bad => cases taken
  | node n | corpusSeed n =>
      simp only [take] at taken
      split at taken
      · cases taken
      · obtain rfl := Option.some.inj taken
        exact ⟨bounded.conns⟩
  | perRoom | srcIps | srcIpBase | inflight | rate | duration | size | sizeMix | corpus | serverPid
  | other =>
      obtain rfl := Option.some.inj taken
      exact ⟨bounded.conns⟩

theorem Settings.takes_bounded {args : List Arg} {cfg later : Settings} (bounded : cfg.Bounded)
    (taken : args.foldlM Settings.take cfg = some later) : later.Bounded := by
  induction args generalizing cfg with
  | nil =>
      obtain rfl := Option.some.inj taken
      exact bounded
  | cons arg args ih =>
      rw [List.foldlM_cons] at taken
      obtain ⟨next, first, rest⟩ := Option.bind_eq_some_iff.mp taken
      exact ih (Settings.take_bounded bounded first) rest

/-- What `parse_args` lets through. -/
structure Settings.Accepted (cfg : Settings) : Prop where
  some : 0 < cfg.conns
  conns : cfg.conns < 2 ^ 31
  size : cfg.size.toNat ≤ maxBlob - blobHeader

theorem parseArgs_accepted {args : List Arg} {cfg : Settings} (parsed : parseArgs args = some cfg) :
    cfg.Accepted := by
  obtain ⟨read, taken, checked⟩ := Option.bind_eq_some_iff.mp parsed
  have bounded : read.Bounded := Settings.takes_bounded ⟨by decide⟩ taken
  unfold Settings.check at checked
  split at checked
  · cases checked
  next positive =>
    split at checked
    · cases checked
    · split at checked
      · cases checked
      · split at checked
        · cases checked
        · obtain rfl := Option.some.inj checked
          refine ⟨?_, bounded.conns, ?_⟩
          · exact Int.not_le.mp fun none => positive (.inl none)
          · simp only [maxBlob, maxPayload, prefixSlack, blobHeader]
            split <;> split <;> omega

/-! ## Messages -/

theorem cutBack_le (line : Bytes) (cut : Nat) : cutBack line cut ≤ cut := by
  induction cut with
  | zero => exact Nat.le_refl 0
  | succ cut ih =>
      unfold cutBack
      split
      · exact Nat.le_succ_of_le ih
      · exact Nat.le_refl _

theorem fitLine_length (most : Nat) (line : Bytes) : (fitLine most line).length ≤ most := by
  unfold fitLine
  split
  · exact (List.length_take_le ..).trans (cutBack_le line most)
  · omega

/-- The most text that a message carries. -/
def largestFill (cfg : Config) : Nat :=
  if cfg.useCorpus then (cfg.lines.map List.length).foldl max 0
  else if cfg.sizeMix then maxBlob - blobHeader
  else min cfg.size (maxBlob - blobHeader)

theorem le_foldl_max {items : List Nat} {start item : Nat} (member : item ∈ items ∨ item ≤ start) :
    item ≤ items.foldl max start := by
  induction items generalizing start with
  | nil => simpa using member
  | cons head items ih =>
      refine ih ?_
      rcases member with inside | small
      · rcases List.mem_cons.mp inside with rfl | inside
        · exact .inr (Nat.le_max_right ..)
        · exact .inl inside
      · exact .inr (small.trans (Nat.le_max_left ..))

theorem foldl_max_mem (items : List Nat) (start : Nat) :
    items.foldl max start = start ∨ items.foldl max start ∈ items := by
  induction items generalizing start with
  | nil => exact .inl rfl
  | cons head items ih =>
      rcases ih (max start head) with same | inside
      · rw [List.foldl_cons, same]
        rcases Nat.le_total start head with le | le
        · exact .inr (by simp [Nat.max_eq_right le])
        · exact .inl (Nat.max_eq_left le)
      · exact .inr (List.mem_cons_of_mem head inside)

theorem body_length_le (cfg : Config) (traffic : Traffic) :
    (traffic.body cfg).1.length ≤ largestFill cfg := by
  unfold Traffic.body largestFill
  split
  · simp only
    rw [List.getD_eq_getElem?_getD]
    cases found : cfg.lines[traffic.corpusCursor]? with
    | none => exact Nat.zero_le _
    | some line =>
        exact le_foldl_max (.inl (List.mem_map_of_mem (List.mem_of_getElem? found)))
  · simp only [List.length_map, List.length_range]
    split
    · exact Nat.min_le_right ..
    · exact Nat.le_refl _

theorem body_attains (cfg : Config) :
    ∃ traffic : Traffic, (traffic.body cfg).1.length = largestFill cfg := by
  have cursors : ∀ classCursor corpusCursor : Nat, ∃ traffic : Traffic,
      traffic.classCursor = classCursor ∧ traffic.corpusCursor = corpusCursor :=
    fun classCursor corpusCursor =>
      ⟨⟨[], [], fun _ => none, [], {}, 0, classCursor, corpusCursor, [], []⟩, rfl, rfl⟩
  unfold Traffic.body largestFill
  split
  next corpus =>
    simp only
    rcases foldl_max_mem (cfg.lines.map List.length) 0 with none | some
    · obtain ⟨traffic, _, cursor⟩ := cursors 0 cfg.lines.length
      refine ⟨traffic, ?_⟩
      rw [cursor, none, List.getD_eq_getElem?_getD, List.getElem?_eq_none (Nat.le_refl _)]
      rfl
    · obtain ⟨line, member, same⟩ := List.mem_map.mp some
      obtain ⟨place, found⟩ := List.getElem?_of_mem member
      obtain ⟨traffic, _, cursor⟩ := cursors 0 place
      refine ⟨traffic, ?_⟩
      rw [cursor, List.getD_eq_getElem?_getD, found, ← same]
      rfl
  · obtain ⟨traffic, cursor, _⟩ := cursors 3 0
    refine ⟨traffic, ?_⟩
    simp only [List.length_map, List.length_range, cursor]
    split
    · decide
    · rfl

theorem blob_length (cfg : Config) (due : Int) (c : Conn) (text : Bytes) :
    (blob cfg due c text).length = blobHeader + text.length := by
  simp [blob, blobHeader]
  omega

/-- The next message of a connection is not too long for the server, before or after it
is given the name of its sender. -/
def MessageFits (cfg : Config) (traffic : Traffic) (due : Int) (c : Conn) : Prop :=
  (blob cfg due c (traffic.body cfg).1).length ≤ Epoll.maxPayload ∧
    (chatLine ((nickOf cfg.node c.index).take nickMax)
      (blob cfg due c (traffic.body cfg).1)).length ≤ Epoll.maxPayload

/-- A connection that `run_connect` opened. -/
def Conn.Opened (cfg : Config) (c : Conn) : Prop := 0 ≤ c.index ∧ c.index < cfg.conns

def MessagesFit (cfg : Config) : Prop :=
  ∀ (traffic : Traffic) (due : Int) (c : Conn), c.Opened cfg → MessageFits cfg traffic due c

theorem nickOf_length (node : UInt32) (index : Int) :
    (nickOf node index).length = 2 + Decimal.width node.toNat + Decimal.width index.toNat := by
  simp [nickOf, tag, Epoll.ascii, Decimal.width]
  omega

/-- `c_set_nick` keeps the whole of such a name. -/
theorem nickOf_kept (node : UInt32) {index : Int} (small : index < 2 ^ 31) :
    (nickOf node index).take nickMax = nickOf node index := by
  refine List.take_of_length_le ?_
  have nodeWidth : Decimal.width node.toNat ≤ 10 :=
    (Decimal.width_le_iff (by decide)).mpr (Nat.lt_of_lt_of_le node.toNat_lt (by decide))
  have indexWidth : Decimal.width index.toNat ≤ 10 :=
    (Decimal.width_le_iff (by decide)).mpr (by omega)
  rw [nickOf_length, nickMax]
  omega

theorem line_length {cfg : Config} {index : Int} (small : index < 2 ^ 31) (due : Int) (c : Conn)
    (text : Bytes) :
    (chatLine ((nickOf cfg.node index).take nickMax) (blob cfg due c text)).length =
      Decimal.width cfg.node.toNat + Decimal.width index.toNat + text.length + 24 := by
  rw [nickOf_kept cfg.node small, chatLine, List.length_append, List.length_append, nickOf_length,
    blob_length]
  have colon : (Epoll.ascii ": ").length = 2 := rfl
  rw [colon, blobHeader]
  omega

theorem largestFill_le {cfg : Settings} (drawn : List Bytes) :
    largestFill (cfg.config drawn) ≤ maxBlob - blobHeader := by
  unfold largestFill Settings.config
  simp only
  split
  · rcases foldl_max_mem ((drawn.map (fitLine (maxBlob - blobHeader))).map List.length) 0 with
      none | some
    · rw [none]
      exact Nat.zero_le _
    · obtain ⟨line, member, same⟩ := List.mem_map.mp some
      obtain ⟨whole, _, rfl⟩ := List.mem_map.mp member
      rw [← same]
      exact fitLine_length ..
  · split
    · exact Nat.le_refl _
    · exact Nat.min_le_right ..

namespace Settings.Accepted

variable {cfg : Settings}

theorem one_fits_iff (accepted : cfg.Accepted) (drawn : List Bytes) (traffic : Traffic) (due : Int)
    {c : Conn} (opened : c.Opened (cfg.config drawn)) :
    MessageFits (cfg.config drawn) traffic due c ↔
      Decimal.width cfg.node.toNat + Decimal.width c.index.toNat +
        (traffic.body (cfg.config drawn)).1.length ≤ 1000 := by
  have small : c.index < 2 ^ 31 := Int.lt_trans opened.2 accepted.conns
  have text := (body_length_le (cfg.config drawn) traffic).trans (largestFill_le drawn)
  have node : (cfg.config drawn).node = cfg.node := rfl
  rw [MessageFits, blob_length, line_length small, node]
  simp only [maxBlob, maxPayload, prefixSlack, blobHeader, Epoll.maxPayload] at *
  omega

theorem all_fit_iff (accepted : cfg.Accepted) (drawn : List Bytes) :
    MessagesFit (cfg.config drawn) ↔
      Decimal.width cfg.node.toNat + Decimal.width (cfg.conns - 1).toNat +
        largestFill (cfg.config drawn) ≤ 1000 := by
  have some := accepted.some
  constructor
  · intro fit
    obtain ⟨traffic, attained⟩ := body_attains (cfg.config drawn)
    have opened : Conn.Opened (cfg.config drawn) { index := cfg.conns - 1 } :=
      ⟨Int.sub_nonneg_of_le some, Int.sub_one_lt_of_le (Int.le_refl cfg.conns)⟩
    rw [← attained]
    exact (accepted.one_fits_iff drawn traffic 0 opened).mp (fit traffic 0 _ opened)
  · intro narrow traffic due c opened
    rw [accepted.one_fits_iff drawn traffic due opened]
    have text := body_length_le (cfg.config drawn) traffic
    have last : c.index ≤ cfg.conns - 1 := Int.le_sub_one_of_lt opened.2
    have width : Decimal.width c.index.toNat ≤ Decimal.width (cfg.conns - 1).toNat :=
      Decimal.width_mono (Int.toNat_le_toNat last)
    omega

end Settings.Accepted

/-- A message fits exactly when the digits in the name leave room for its text, and all
of them fit when those of the last connection leave room for the longest one. -/
theorem messages_fit_iff {args : List Arg} {cfg : Settings} (parsed : parseArgs args = some cfg)
    (drawn : List Bytes) :
    (∀ (traffic : Traffic) (due : Int) (c : Conn), c.Opened (cfg.config drawn) →
      (MessageFits (cfg.config drawn) traffic due c ↔
        Decimal.width cfg.node.toNat + Decimal.width c.index.toNat +
          (traffic.body (cfg.config drawn)).1.length ≤ 1000)) ∧
      (MessagesFit (cfg.config drawn) ↔
        Decimal.width cfg.node.toNat + Decimal.width (cfg.conns - 1).toNat +
          largestFill (cfg.config drawn) ≤ 1000) :=
  ⟨fun traffic due _ opened => (parseArgs_accepted parsed).one_fits_iff drawn traffic due opened,
    (parseArgs_accepted parsed).all_fit_iff drawn⟩

/-- With a node id of ten digits, texts of 986 bytes are the longest that all fit, and no line of
the corpus may be longer either. -/
theorem messages_fit_iff_long_name :
    MessagesFit (Settings.config { node := 1000000000, size := 986 } []) ∧
      ¬ MessagesFit (Settings.config { node := 1000000000, size := 987 } []) ∧
      MessagesFit (Settings.config { node := 1000000000, useCorpus := true }
        [List.replicate 986 120, [120]]) := by
  have sized := @messages_fit_iff [.node 1000000000, .size 986] _ rfl []
  have longer := @messages_fit_iff [.node 1000000000, .size 987] _ rfl []
  have drawn := @messages_fit_iff [.node 1000000000, .corpus] _ rfl [List.replicate 986 120, [120]]
  exact ⟨sized.2.mpr (by decide), mt longer.2.mp (by decide), drawn.2.mpr (by decide +kernel)⟩

/-- A node id of ten digits and the longest text that `--size` allows. -/
theorem long_name_message_dropped :
    ∃ cfg, parseArgs [.node 1000000000, .size 988] = some cfg ∧ ¬ MessagesFit (cfg.config []) := by
  refine ⟨{ node := 1000000000, size := 988 }, rfl, ?_⟩
  have accepted : Settings.Accepted { node := 1000000000, size := 988 } :=
    ⟨by decide, by decide, by decide⟩
  rw [accepted.all_fit_iff]
  decide

end NetEngine.Bench
