import BtcPool.Network.SessionRefines
import BtcPool.Protocol.Sv2.SessionRefines

/-!
# Who a block pays

A session takes an identity from its miner and may take another one later, while jobs made for the
first are still out. `blocks_pay_holder` says that this never misdirects a reward: in every state a
session of either protocol reaches, every job a submit can be resolved to was made for the payout of
the identity held, and every block submitted to the engine pays the whole value of the template of
its job to that payout.
-/

namespace BtcPool

open Bitcoin

/-! ## Payouts -/

/-- Every job a submit can be resolved to was made for the payout of the identity held, and every
block the session submits in its next turn pays the whole value of the template of its job to it. -/
def Sv1.Session.PaysHolder (H : Bytes → ByteVec 32) (A : AddressLib) (offered : JobTemplate → Prop)
    (s : Session) : Prop :=
  (∀ jobId entry, s.issuedJobs.find jobId = some entry →
    ∃ identity template, s.identity = some identity ∧ offered template ∧
      BuiltJob template identity.payout s.coinbaseTag s.extranonce1.length s.extranonce2Size
        entry.job) ∧
  ∀ input height hashHex blockHex worker payout,
    .submitFoundBlock height hashHex blockHex worker payout ∈ (step H A s input).outputs →
    s.authorized ∧ ∃ id params entry identity template,
      input.event = .line (.request id (.submit params)) ∧
      s.issuedJobs.find params.jobId = some entry ∧
      s.identity = some identity ∧ offered template ∧
      BuiltJob template identity.payout s.coinbaseTag s.extranonce1.length s.extranonce2Size
        entry.job ∧
      BlockPays blockHex template.coinbaseValue identity.payout.scriptPubkey

/-- The same for a session that speaks Stratum V2, whose jobs are known by the numbers of its
channel. -/
def Sv2.Session.PaysHolder (W : Wire) (H : Bytes → ByteVec 32) (A : AddressLib)
    (offered : JobTemplate → Prop) (s : Session) : Prop :=
  (∀ jobId entry, (s.engineJobId jobId).bind s.issuedJobs.find = some entry →
    ∃ identity template, s.identity = some identity ∧ offered template ∧
      BuiltJob template identity.payout s.coinbaseTag s.extranoncePrefix.length s.extranonceSize
        entry.job) ∧
  ∀ input height hashHex blockHex worker payout,
    .submitFoundBlock height hashHex blockHex worker payout ∈ (step W H A s input).outputs →
    s.channelOpen ∧ ∃ payloadLen submit entry identity template,
      input.event = .frame payloadLen (.submitExtended (.ok submit)) ∧
      (s.engineJobId submit.jobId).bind s.issuedJobs.find = some entry ∧
      s.identity = some identity ∧ offered template ∧
      BuiltJob template identity.payout s.coinbaseTag s.extranoncePrefix.length s.extranonceSize
        entry.job ∧
      BlockPays blockHex template.coinbaseValue identity.payout.scriptPubkey

theorem Sv1.Session.paysHolder_of_valid {R : Core.Rules} {s : Session} (hv : s.core.Valid R)
    (hinv : s.Inv R) : s.PaysHolder R.H R.A R.offered := by
  refine ⟨fun jobId entry hfind => ?_, fun input height hashHex blockHex worker payout hblock => ?_⟩
  · obtain ⟨template, identity, hidentity, hoffered, hbuilt⟩ :=
      hv.built entry (IssuedJobs.mem_of_find hfind).1
    exact ⟨identity, template, hidentity, hoffered, hinv.tag ▸ hbuilt⟩
  · obtain ⟨id, params, entry, hd, hash, hevent, hs⟩ := block_of_step hblock
    obtain ⟨identity, template, hidentity, hoffered, hbuilt, hpays⟩ :=
      hv.block_pays (IssuedJobs.mem_of_find hs.find).1 hs.valid
    exact ⟨hs.authorized, id, params, entry, identity, template, hevent, hs.find, hidentity,
      hoffered, hinv.tag ▸ hbuilt, hpays⟩

theorem Sv2.Session.paysHolder_of_valid {W : Wire} {R : Core.Rules} {s : Session}
    (hv : s.core.Valid R) (hinv : s.Inv R) : s.PaysHolder W R.H R.A R.offered := by
  refine ⟨fun jobId entry hfind => ?_, fun input height hashHex blockHex worker payout hblock => ?_⟩
  · obtain ⟨engineId, -, hfind⟩ := Option.bind_eq_some_iff.mp hfind
    obtain ⟨template, identity, hidentity, hoffered, hbuilt⟩ :=
      hv.built entry (IssuedJobs.mem_of_find hfind).1
    exact ⟨identity, template, hidentity, hoffered, hinv.tag ▸ hbuilt⟩
  · obtain ⟨payloadLen, submit, entry, hd, hash, hevent, hs⟩ := block_of_step hblock
    obtain ⟨engineId, -, hfind⟩ := Option.bind_eq_some_iff.mp hs.find
    obtain ⟨identity, template, hidentity, hoffered, hbuilt, hpays⟩ :=
      hv.block_pays (IssuedJobs.mem_of_find hfind).1 hs.valid
    exact ⟨hs.channel, payloadLen, submit, entry, identity, template, hevent, hs.find, hidentity,
      hoffered, hinv.tag ▸ hbuilt, hpays⟩

section

variable {H : Bytes → ByteVec 32} {A : AddressLib} {W : Sv2.Wire}

/-- In every run of a session of either protocol, on any inputs whose templates are all `offered`,
the state reached pays the identity it holds. -/
theorem blocks_pay_holder (hA : A.Lawful) (cfg : Config) (network : Network) (sessionId : Str)
    (extranonce1 : Bytes) (now : Instant) (offered : JobTemplate → Prop)
    (template : Option JobTemplate) (htemplate : ∀ t, template = some t → offered t) :
    (∀ inputs : List Sv1.Input, (∀ input ∈ inputs, input.Offers offered) →
      let out := (Sv1.Session.process H A).run
        (Sv1.Session.new cfg network sessionId extranonce1 template now) inputs
      out.live → out.state.PaysHolder H A offered) ∧
    ∀ inputs : List Sv2.Input, (∀ input ∈ inputs, input.Offers offered) →
      let out := (Sv2.Session.process W H A).run
        (Sv2.Session.new cfg network sessionId extranonce1 template now) inputs
      out.live → out.state.PaysHolder W H A offered := by
  let R := Core.Rules.plain H A network cfg.pool.coinbaseTag offered
  refine ⟨fun inputs hoffers hlive => ?_, fun inputs hoffers hlive => ?_⟩
  · obtain ⟨hv, hinv⟩ := (Core.Valid.run (Sv1.Session.refinement R) hA
      (Sv1.Session.inv_new rfl htemplate ..) (Core.Valid.of_idle rfl nofun)
      (Process.meets_of_forall (fun input hi s =>
        ⟨hoffers input hi, fun _ _ => trivial, fun _ _ => trivial⟩) _)).1 hlive
    exact Sv1.Session.paysHolder_of_valid hv hinv
  · obtain ⟨hv, hinv⟩ := (Core.Valid.run (Sv2.Session.refinement W R) hA
      (Sv2.Session.inv_new rfl htemplate ..) (Core.Valid.of_idle rfl nofun)
      (Process.meets_of_forall (fun input hi s =>
        ⟨hoffers input hi, fun _ _ => trivial⟩) _)).1 hlive
    exact Sv2.Session.paysHolder_of_valid hv hinv

end

/-- The state of a regtest session that has an identity and a job. -/
def Sv1.regtestReady : Sv1.Session :=
  ((Sv1.Session.process zeroHash regtestAddresses).run Sv1.regtestSession Sv1.regtestInputs).state

/-- The same of a session that speaks Stratum V2. -/
def Sv2.regtestReady : Sv2.Session :=
  ((Sv2.Session.process .exact zeroHash regtestAddresses).run Sv2.regtestSession
    Sv2.regtestInputs).state

/-- In a regtest run of either protocol the miner's first share is a block, and pays the miner. -/
theorem blocks_pay_holder_regtest :
    (∃ height hashHex blockHex worker payout,
      .submitFoundBlock height hashHex blockHex worker payout ∈
        (Sv1.Session.step zeroHash regtestAddresses Sv1.regtestReady
          (.regtest (.submit Sv1.regtestSubmit))).outputs ∧
      BlockPays blockHex 5000000000 regtestPayout.scriptPubkey) ∧
    ∃ height hashHex blockHex worker payout,
      .submitFoundBlock height hashHex blockHex worker payout ∈
        (Sv2.Session.step .exact zeroHash regtestAddresses Sv2.regtestReady
          (.regtest (.submitExtended (.ok Sv2.regtestSubmit)))).outputs ∧
      BlockPays blockHex 5000000000 regtestPayout.scriptPubkey := by
  obtain ⟨hsv1, hsv2⟩ := blocks_pay_holder (H := zeroHash) (W := .exact) lawful_regtestAddresses
    regtestConfig .regtest "s".toList [1, 2, 3, 4] 0 (· = regtestTemplate) (some regtestTemplate)
    (by simp)
  have hoffers : ∀ input ∈ Sv1.regtestInputs, input.Offers (· = regtestTemplate) := by
    simp [Sv1.regtestInputs, Sv1.Input.regtest, Sv1.Input.Offers, Env.regtest]
  have hoffers' : ∀ input ∈ Sv2.regtestInputs, input.Offers (· = regtestTemplate) := by
    simp [Sv2.regtestInputs, Sv2.Input.regtest, Sv2.Input.Offers]
  have hready : Sv1.regtestReady.PaysHolder zeroHash regtestAddresses (· = regtestTemplate) :=
    hsv1 Sv1.regtestInputs hoffers (by decide +kernel)
  have hready' : Sv2.regtestReady.PaysHolder .exact zeroHash regtestAddresses
      (· = regtestTemplate) := hsv2 Sv2.regtestInputs hoffers' (by decide +kernel)
  refine ⟨?_, ?_⟩
  · have hfound : (Sv1.Session.step zeroHash regtestAddresses Sv1.regtestReady
        (.regtest (.submit Sv1.regtestSubmit))).outputs.any Effect.isFoundBlock := by decide +kernel
    have hheld : Sv1.regtestReady.identity.map MinerIdentity.payout = some regtestPayout := by
      decide +kernel
    obtain ⟨height, hashHex, blockHex, worker, payout, hmem⟩ := Effect.exists_of_isFoundBlock hfound
    obtain ⟨-, -, -, -, identity, -, -, -, hidentity, rfl, -, hpays⟩ := hready.2 _ _ _ _ _ _ hmem
    rw [hidentity] at hheld
    exact ⟨height, hashHex, blockHex, worker, payout, hmem, Option.some.inj hheld ▸ hpays⟩
  · have hfound : (Sv2.Session.step .exact zeroHash regtestAddresses Sv2.regtestReady
        (.regtest (.submitExtended (.ok Sv2.regtestSubmit)))).outputs.any Effect.isFoundBlock := by
      decide +kernel
    have hheld : Sv2.regtestReady.identity.map MinerIdentity.payout = some regtestPayout := by
      decide +kernel
    obtain ⟨height, hashHex, blockHex, worker, payout, hmem⟩ := Effect.exists_of_isFoundBlock hfound
    obtain ⟨-, -, -, -, identity, -, -, -, hidentity, rfl, -, hpays⟩ := hready'.2 _ _ _ _ _ _ hmem
    rw [hidentity] at hheld
    exact ⟨height, hashHex, blockHex, worker, payout, hmem, Option.some.inj hheld ▸ hpays⟩

end BtcPool
