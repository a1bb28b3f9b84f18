import NetEngine.Bench.Connect

/-! `fleet.py`: the loadgen processes that it starts, and the local addresses of
their sockets. Ephemeral ports are a resource of one source address, so two
processes that share one divide its pool. -/

set_option autoImplicit false

namespace NetEngine.Bench

/-- The options of `fleet.py` that matter to a source address or to what `parse_args`
refuses; nothing is passed through. -/
structure Fleet where
  nodes : Int := 3
  conns : Int := 3334
  rate : Rat := 1
  duration : Int := 20
  perRoom : Int := 10
  srcIps : Int := 1

/-- `std::atoi` of a printed integer: `strtol` saturates, and the cast to `int` wraps. -/
def atoi (n : Int) : Int32 := Int32.ofInt (max (-2 ^ 63) (min (2 ^ 63 - 1) n))

namespace Fleet

/-- The command line of one node, options with their values. -/
def command (fleet : Fleet) (node : Nat) : List Arg :=
  let base := 1 + node * fleet.srcIps
  [.other, .other, .node (atoi node), .conns (atoi fleet.conns), .perRoom (atoi fleet.perRoom),
    .rate fleet.rate, .duration (atoi fleet.duration), .srcIps (atoi fleet.srcIps),
    .srcIpBase (atoi base), .other]

/-- Whether the checks let the fleet start; if so, one command line for each node. -/
def commands (fleet : Fleet) : Option (List (List Arg)) :=
  let highest := 1 + fleet.nodes * fleet.srcIps - 1
  if fleet.nodes < 1 then none
  else if 255 < highest then none
  else some ((List.range fleet.nodes.toNat).map fleet.command)

end Fleet

def loopback : Inet.Addr := ⟨127, 0, 0, 1⟩

/-- The source address of a socket: the kernel's default where nothing was bound. -/
def Dialled.localAddr (dialled : Dialled) : Inet.Addr := dialled.source.getD loopback

namespace Fleet

/-- A node of the fleet, with the settings that its process reads, opens this socket. -/
structure Opens (fleet : Fleet) (node : Nat) (dialled : Dialled) : Prop where
  opens : ∃ commands args cfg index dial, fleet.commands = some commands ∧ commands[node]? = some args ∧
    parseArgs args = some cfg ∧ 0 ≤ index ∧ index < cfg.conns ∧ startConnect cfg index dial = .ok dialled

/-- No two nodes share a source address, and every one is in 127.0.0.1 to 127.0.0.255. -/
def SourcesApart (fleet : Fleet) : Prop :=
  (∀ left right near far, left ≠ right → fleet.Opens left near → fleet.Opens right far →
    near.localAddr ≠ far.localAddr) ∧
  ∀ node dialled, fleet.Opens node dialled →
    ∃ d, 1 ≤ d ∧ d ≤ 255 ∧ dialled.localAddr = ⟨127, 0, 0, UInt8.ofNat d⟩

/-- What `loadgen` refuses on every node: then there is no socket at all. -/
def Refused (fleet : Fleet) : Prop :=
  (atoi fleet.conns).toInt ≤ 0 ∨ (atoi fleet.perRoom).toInt ≤ 0 ∨ fleet.rate < 0 ∨
    (atoi fleet.duration).toInt < 0

instance (fleet : Fleet) : Decidable fleet.Refused :=
  inferInstanceAs (Decidable (_ ∨ _))

end Fleet

/-! ## One socket -/

/-- With one source address the socket is not bound. -/
theorem unbound {cfg : Settings} {index : Int} {dial : Dial} {dialled : Dialled} (one : cfg.srcIps ≤ 1)
    (connected : startConnect cfg index dial = .ok dialled) : dialled.localAddr = loopback := by
  have bound := (startConnect_ok connected).2
  rw [bindSource, if_pos one] at bound
  cases bound_source : dialled.source with
  | none => rw [Dialled.localAddr, bound_source]; rfl
  | some source => rw [bound_source] at bound; cases bound

theorem source_text {d : Nat} (small : d ≤ 255) :
    Inet.pton (Epoll.ascii "127.0.0." ++ printInt d) = some ⟨127, 0, 0, UInt8.ofNat d⟩ := by
  have text : Epoll.ascii "127.0.0." ++ printInt d =
      Decimal.print 127 ++ 46 :: (Decimal.print 0 ++ 46 :: (Decimal.print 0 ++ 46 :: Decimal.print d)) := by
    rw [printInt, if_neg (Int.not_lt.mpr (Int.natCast_nonneg d)), Int.toNat_natCast]
    rfl
  rw [text, Inet.pton_dotted (by decide) (by decide) (by decide) small]
  rfl

/-- With several, it is bound to the one that its index picks. -/
theorem bound_source {cfg : Settings} {index : Int} {dial : Dial} {dialled : Dialled}
    (several : 1 < cfg.srcIps) (base : 1 ≤ cfg.srcIpBase) (top : cfg.srcIpBase + cfg.srcIps - 1 ≤ 255)
    (index_nonneg : 0 ≤ index) (connected : startConnect cfg index dial = .ok dialled) :
    ∃ d : Nat, (d : Int) = cfg.srcIpBase + index % cfg.srcIps ∧ 1 ≤ d ∧ d ≤ 255 ∧
      dialled.localAddr = ⟨127, 0, 0, UInt8.ofNat d⟩ := by
  have low := Int.emod_nonneg index (show cfg.srcIps ≠ 0 by omega)
  have high := Int.emod_lt_of_pos index (show 0 < cfg.srcIps by omega)
  obtain ⟨d, d_eq⟩ := Int.eq_ofNat_of_zero_le (show 0 ≤ cfg.srcIpBase + index % cfg.srcIps by omega)
  have small : d ≤ 255 := by omega
  refine ⟨d, d_eq.symm, by omega, small, ?_⟩
  have bound := (startConnect_ok connected).2
  rw [bindSource, if_neg (Int.not_le.mpr several), Int.tmod_eq_emod_of_nonneg index_nonneg, d_eq] at bound
  simp only [source_text small] at bound
  cases answer : dial.bind with
  | error err => simp [answer] at bound
  | ok _ =>
      simp only [answer] at bound
      rw [Dialled.localAddr, ← Except.ok.inj bound]
      rfl

/-! ## One node -/

namespace Fleet

/-- What the command line of a node sets. -/
def settings (fleet : Fleet) (node : Nat) : Settings where
  node := .ofNat (atoi node).toInt.toNat
  conns := (atoi fleet.conns).toInt
  perRoom := (atoi fleet.perRoom).toInt
  rate := fleet.rate
  duration := (atoi fleet.duration).toInt
  srcIps := (atoi fleet.srcIps).toInt
  srcIpBase := (atoi (1 + node * fleet.srcIps)).toInt

theorem atoi_toInt {n : Int} (low : -2 ^ 31 ≤ n) (high : n < 2 ^ 31) : (atoi n).toInt = n := by
  rw [atoi, min_eq_right (by omega), max_eq_right (by omega), Int32.toInt_ofInt_of_le low high]

theorem command_read (fleet : Fleet) {node : Nat} (small : node < 2 ^ 31) :
    parseArgs (fleet.command node) = (fleet.settings node).check := by
  have fits : (atoi node).toInt = node := atoi_toInt (by omega) (by omega)
  have taken : (fleet.command node).foldlM Settings.take {} = some (fleet.settings node) := by
    simp only [command, List.foldlM_cons, List.foldlM_nil, Settings.take, Option.bind_eq_bind, Option.bind_some,
      Option.pure_def, settings, fits, if_neg (Int.not_lt.mpr (Int.natCast_nonneg node))]
  rw [parseArgs, taken, Option.bind_some]

section
variable {fleet : Fleet}

/-- The node's share of the range ends inside it. -/
theorem base_fits (fits : fleet.nodes * fleet.srcIps ≤ 255) (some : 1 ≤ fleet.srcIps) {node : Nat}
    (inside : (node : Int) < fleet.nodes) : (node + 1) * fleet.srcIps ≤ 255 :=
  Int.le_trans (Int.mul_le_mul_of_nonneg_right inside (by omega)) fits

theorem settings_check (fits : fleet.nodes * fleet.srcIps ≤ 255) (some : 1 ≤ fleet.srcIps) {node : Nat}
    (inside : (node : Int) < fleet.nodes) :
    (fleet.settings node).srcIps = fleet.srcIps ∧ (fleet.settings node).srcIpBase = 1 + node * fleet.srcIps ∧
      (fleet.settings node).check = if fleet.Refused then none else .some (fleet.settings node) := by
  have top := base_fits fits some inside
  have base : 0 ≤ node * fleet.srcIps := Int.mul_nonneg (Int.natCast_nonneg node) (by omega)
  rw [Int.add_mul, Int.one_mul] at top
  have count : (fleet.settings node).srcIps = fleet.srcIps := atoi_toInt (by omega) (by omega)
  have first : (fleet.settings node).srcIpBase = 1 + node * fleet.srcIps := atoi_toInt (by omega) (by omega)
  have range : ¬ ((fleet.settings node).srcIpBase < 1 ∨
      255 < (fleet.settings node).srcIpBase + (fleet.settings node).srcIps - 1) := by
    rw [count, first]
    omega
  refine ⟨count, first, ?_⟩
  rw [Settings.check, if_neg range]
  by_cases refused : fleet.Refused
  · rw [if_pos refused]
    rcases refused with conns | perRoom | never
    · exact if_pos (.inl conns)
    · exact if_pos (.inr (.inl perRoom))
    · have late : (fleet.settings node).rate < 0 ∨ (fleet.settings node).duration < 0 := never
      rw [if_pos late, ite_self, ite_self]
  · rw [if_neg refused]
    have counts : ¬ ((fleet.settings node).conns ≤ 0 ∨ (fleet.settings node).perRoom ≤ 0 ∨
        (fleet.settings node).srcIps ≤ 0 ∨ (fleet.settings node).inflight ≤ 0) := by
      rw [count]
      rintro (conns | perRoom | srcIps | inflight)
      · exact refused (.inl conns)
      · exact refused (.inr (.inl perRoom))
      · exact absurd some (Int.not_le.mpr (Int.lt_of_le_of_lt srcIps (by decide)))
      · exact absurd inflight (of_decide_eq_false rfl)
    have pace : ¬ ((fleet.settings node).rate < 0 ∨ (fleet.settings node).duration < 0) :=
      fun never => refused (.inr (.inr never))
    rw [if_neg counts, if_neg pace]
    rfl

/-- Which sockets a fleet that starts opens. -/
theorem opens_iff (fits : fleet.nodes * fleet.srcIps ≤ 255) (some : 1 ≤ fleet.srcIps)
    (nodes : 1 ≤ fleet.nodes) (node : Nat) (dialled : Dialled) :
    fleet.Opens node dialled ↔ (node : Int) < fleet.nodes ∧ ¬ fleet.Refused ∧
      ∃ index dial, 0 ≤ index ∧ index < (fleet.settings node).conns ∧
        startConnect (fleet.settings node) index dial = .ok dialled := by
  have started : fleet.commands = .some ((List.range fleet.nodes.toNat).map fleet.command) := by
    rw [commands, if_neg (Int.not_lt.mpr nodes), if_neg (by omega)]
  have most : fleet.nodes ≤ 255 :=
    Int.le_trans (by simpa using Int.mul_le_mul_of_nonneg_left some (show 0 ≤ fleet.nodes by omega)) fits
  constructor
  · rintro ⟨commands, args, cfg, index, dial, listed, here, parsed, low, high, connected⟩
    rw [started] at listed
    obtain rfl := Option.some.inj listed
    obtain ⟨inside, same⟩ := List.getElem?_eq_some_iff.mp here
    rw [List.length_map, List.length_range] at inside
    rw [List.getElem_map, List.getElem_range] at same
    subst same
    have below : (node : Int) < fleet.nodes := by omega
    rw [command_read fleet (by omega), (settings_check fits some below).2.2] at parsed
    split at parsed
    · cases parsed
    next refused =>
      obtain rfl := Option.some.inj parsed
      exact ⟨below, refused, index, dial, low, high, connected⟩
  · rintro ⟨below, refused, index, dial, low, high, connected⟩
    have inside : node < fleet.nodes.toNat := by omega
    refine ⟨_, fleet.command node, fleet.settings node, index, dial, started, ?_, ?_, low, high, connected⟩
    · simp [inside]
    · rw [command_read fleet (by omega), (settings_check fits some below).2.2, if_neg refused]

/-- The sources of two nodes do not meet where each is bound. -/
theorem bound_apart (fits : fleet.nodes * fleet.srcIps ≤ 255) (several : 2 ≤ fleet.srcIps) {node : Nat}
    (inside : (node : Int) < fleet.nodes) {index : Int} {dial : Dial} {dialled : Dialled} (low : 0 ≤ index)
    (connected : startConnect (fleet.settings node) index dial = .ok dialled) :
    ∃ d : Nat, 1 + node * fleet.srcIps ≤ d ∧ (d : Int) < 1 + (node + 1) * fleet.srcIps ∧ 1 ≤ d ∧ d ≤ 255 ∧
      dialled.localAddr = ⟨127, 0, 0, UInt8.ofNat d⟩ := by
  have top := base_fits fits (by omega) inside
  have base : 0 ≤ node * fleet.srcIps := Int.mul_nonneg (Int.natCast_nonneg node) (by omega)
  obtain ⟨count, first, _⟩ := settings_check fits (by omega) inside
  rw [Int.add_mul, Int.one_mul] at top ⊢
  obtain ⟨d, d_eq, positive, small, address⟩ :=
    bound_source (by omega) (by omega) (by omega) low connected
  have least := Int.emod_nonneg index (show fleet.srcIps ≠ 0 by omega)
  have most := Int.emod_lt_of_pos index (show 0 < fleet.srcIps by omega)
  rw [count, first] at d_eq
  exact ⟨d, by omega, by omega, positive, small, address⟩

/-- Processes never share a source exactly when each binds its own, or there is only one. -/
theorem sources_apart_iff (accepted : fleet.commands.isSome) (some : 1 ≤ fleet.srcIps) :
    fleet.SourcesApart ↔ fleet.nodes = 1 ∨ 2 ≤ fleet.srcIps ∨ fleet.Refused := by
  have ⟨nodes, fits⟩ : 1 ≤ fleet.nodes ∧ fleet.nodes * fleet.srcIps ≤ 255 := by
    unfold commands at accepted
    dsimp only at accepted
    split at accepted
    · cases accepted
    · split at accepted
      · cases accepted
      · omega
  have opens := opens_iff fits some nodes
  constructor
  · rintro ⟨apart, _⟩
    by_contra shared
    obtain ⟨several, one, refused⟩ := by simpa only [not_or] using shared
    -- two nodes, one source each: both sockets are left unbound
    have connects (node : Nat) (inside : (node : Int) < fleet.nodes) : ∃ dialled, fleet.Opens node dialled ∧
        dialled.localAddr = loopback := by
      have count := (settings_check fits some inside).1
      have positive : 0 < (fleet.settings node).conns := by
        by_contra empty
        exact refused (.inl (Int.not_lt.mp empty))
      let dial : Dial := ⟨.ok 0, 0, .ok (), .ok ()⟩
      have connected : startConnect (fleet.settings node) 0 dial = .ok ⟨0, none⟩ := by
        rw [startConnect, bindSource, if_pos (by omega)]
      exact ⟨⟨0, none⟩, (opens node _).mpr ⟨inside, refused, 0, dial, Int.le_refl 0, positive, connected⟩, rfl⟩
    obtain ⟨near, opened_near, same_near⟩ := connects 0 (by omega)
    obtain ⟨far, opened_far, same_far⟩ := connects 1 (by omega)
    exact apart 0 1 near far (by decide) opened_near opened_far (same_near.trans same_far.symm)
  · intro condition
    constructor
    · intro left right near far different opened_near opened_far
      obtain ⟨inside_left, refused, i, dial_near, low_near, _, connected_near⟩ := (opens left near).mp opened_near
      obtain ⟨inside_right, _, j, dial_far, low_far, _, connected_far⟩ := (opens right far).mp opened_far
      have several : 2 ≤ fleet.srcIps := by
        rcases condition with one | several | never
        · omega
        · exact several
        · exact absurd never refused
      obtain ⟨d, low, high, _, small, near_eq⟩ := bound_apart fits several inside_left low_near connected_near
      obtain ⟨e, low', high', _, small', far_eq⟩ := bound_apart fits several inside_right low_far connected_far
      have apart : d ≠ e := by
        rintro rfl
        rcases Nat.lt_or_gt_of_ne different with before | after
        · have step : (left + 1 : Int) * fleet.srcIps ≤ right * fleet.srcIps :=
            Int.mul_le_mul_of_nonneg_right (by omega) (by omega)
          omega
        · have step : (right + 1 : Int) * fleet.srcIps ≤ left * fleet.srcIps :=
            Int.mul_le_mul_of_nonneg_right (by omega) (by omega)
          omega
      rw [near_eq, far_eq]
      intro same
      have octets := congrArg (fun address => address.d.toNat) same
      simp only [UInt8.toNat_ofNat'] at octets
      omega
    · intro node dialled opened
      obtain ⟨inside, _, index, dial, low, _, connected⟩ := (opens node dialled).mp opened
      by_cases several : 2 ≤ fleet.srcIps
      · obtain ⟨d, _, _, positive, small, address⟩ := bound_apart fits several inside low connected
        exact ⟨d, positive, small, address⟩
      · have count := (settings_check fits some inside).1
        exact ⟨1, by decide, by decide, unbound (by omega) connected⟩

/-- Five nodes with fifty sources each. -/
theorem sources_apart_fifty : ({ nodes := 5, srcIps := 50 } : Fleet).SourcesApart :=
  (sources_apart_iff (by decide) (by decide)).mpr (.inr (.inl (by decide)))

/-- The defaults: three nodes, and every socket has the kernel's default source. -/
theorem default_fleet_shares : ({} : Fleet).commands.isSome ∧ ¬ ({} : Fleet).SourcesApart := by
  refine ⟨rfl, fun shares => ?_⟩
  let dial : Dial := ⟨.ok 0, 0, .ok (), .ok ()⟩
  have first : Opens {} 0 ⟨0, none⟩ :=
    ⟨_, command {} 0, settings {} 0, 0, dial, rfl, rfl, rfl, by decide, by decide, rfl⟩
  have second : Opens {} 1 ⟨0, none⟩ :=
    ⟨_, command {} 1, settings {} 1, 0, dial, rfl, rfl, rfl, by decide, by decide, rfl⟩
  exact shares.1 0 1 ⟨0, none⟩ ⟨0, none⟩ (by decide) first second rfl

end

end Fleet

end NetEngine.Bench
