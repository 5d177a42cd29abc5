import MurlSystem.Foundation.Cidr
import MurlSystem.Foundation.Fallible

namespace MurlSystem

open Cidr

structure Ipv4Addr where
  a : UInt8
  b : UInt8
  c : UInt8
  d : UInt8
deriving DecidableEq, Repr

structure Ipv6Addr where
  s0 : UInt16
  s1 : UInt16
  s2 : UInt16
  s3 : UInt16
  s4 : UInt16
  s5 : UInt16
  s6 : UInt16
  s7 : UInt16
deriving DecidableEq, Repr

inductive IpAddr
  | v4 (v4 : Ipv4Addr)
  | v6 (v6 : Ipv6Addr)
deriving DecidableEq, Repr

structure SocketAddr where
  ip : IpAddr
  port : Nat
deriving DecidableEq, Repr

namespace Ipv4Addr

def toNat (v4 : Ipv4Addr) : Nat :=
  v4.a.toNat * 2 ^ 24 + v4.b.toNat * 2 ^ 16 + v4.c.toNat * 2 ^ 8 + v4.d.toNat

def isLoopback (v4 : Ipv4Addr) : Bool := v4.a == 127

def isPrivate (v4 : Ipv4Addr) : Bool :=
  v4.a == 10 || (v4.a == 172 && 16 ≤ v4.b && v4.b ≤ 31) || (v4.a == 192 && v4.b == 168)

def isLinkLocal (v4 : Ipv4Addr) : Bool := v4.a == 169 && v4.b == 254

def isBroadcast (v4 : Ipv4Addr) : Bool := v4 == ⟨255,255,255,255⟩

def isMulticast (v4 : Ipv4Addr) : Bool := 224 ≤ v4.a && v4.a ≤ 239

end Ipv4Addr

namespace Ipv6Addr

def toNat (v6 : Ipv6Addr) : Nat :=
  v6.s0.toNat * 2 ^ 112 + v6.s1.toNat * 2 ^ 96 + v6.s2.toNat * 2 ^ 80 + v6.s3.toNat * 2 ^ 64 +
    v6.s4.toNat * 2 ^ 48 + v6.s5.toNat * 2 ^ 32 + v6.s6.toNat * 2 ^ 16 + v6.s7.toNat

def isLoopback (v6 : Ipv6Addr) : Bool := v6 == ⟨0,0,0,0,0,0,0,1⟩

def isUnspecified (v6 : Ipv6Addr) : Bool := v6 == ⟨0,0,0,0,0,0,0,0⟩

def isMulticast (v6 : Ipv6Addr) : Bool := v6.s0 &&& 0xff00 == 0xff00

def high (s : UInt16) : UInt8 := UInt8.ofNat (s.toNat / 256)

def low (s : UInt16) : UInt8 := UInt8.ofNat (s.toNat % 256)

def toIpv4Mapped (v6 : Ipv6Addr) : Option Ipv4Addr :=
  if v6.s0 = 0 ∧ v6.s1 = 0 ∧ v6.s2 = 0 ∧ v6.s3 = 0 ∧ v6.s4 = 0 ∧ v6.s5 = 0xffff then
    some ⟨high v6.s6,low v6.s6,high v6.s7,low v6.s7⟩
  else none

end Ipv6Addr

namespace IpAddr

def isLoopback : IpAddr → Bool
  | v4 a => a.isLoopback
  | v6 a => a.isLoopback

def judged : IpAddr → IpAddr
  | v4 a => v4 a
  | v6 a => (a.toIpv4Mapped.map v4).getD (v6 a)

end IpAddr

def ipAllowed (ip : IpAddr) (loopback : Bool) : Bool :=
  let ip := ip.judged
  if loopback then ip.isLoopback
  else
    match ip with
    | .v4 v4 =>
      !(v4.isLoopback || v4.isPrivate || v4.isLinkLocal || v4.isBroadcast || v4.isMulticast ||
        v4.a == 0 || (v4.a == 100 && v4.b &&& 0xc0 == 64))
    | .v6 v6 =>
      let seg0 := v6.s0
      !(v6.isLoopback || v6.isUnspecified || v6.isMulticast || seg0 &&& 0xfe00 == 0xfc00 ||
        seg0 &&& 0xffc0 == 0xfe80)

structure GuardedResolver where
  loopback : Bool

-- `toSocketAddrs` is what the system's resolver answers for a host and port.
def GuardedResolver.resolve (toSocketAddrs : String → Except String (List SocketAddr))
    (self : GuardedResolver) (netloc : String) : Except String (List SocketAddr) := do
  let addrs ← toSocketAddrs netloc
  let total := addrs.length
  let allowed := addrs.filter fun a => ipAllowed a.ip self.loopback
  if allowed.isEmpty && 0 < total then
    if self.loopback then
      .error (s!"`{netloc}` is a loopback name but resolves to non-loopback addresses; " ++
        "plain-http manifest fetches never leave this machine")
    else
      .error (s!"`{netloc}` resolves only to blocked address ranges (private/link-local/loopback); " ++
        "manifest resolution refuses to reach into local networks")
  else return allowed

def GuardedResolver.Allows (self : GuardedResolver) (ip : IpAddr) : Prop :=
  ∃ toSocketAddrs netloc allowed port, self.resolve toSocketAddrs netloc = .ok allowed ∧
    ⟨ip,port⟩ ∈ allowed

theorem GuardedResolver.allows_iff {self : GuardedResolver} {ip : IpAddr} :
    self.Allows ip ↔ ipAllowed ip self.loopback = true := by
  constructor
  · rintro ⟨toSocketAddrs,netloc,allowed,port,hresolve,hmem⟩
    simp only [resolve,Fallible.bind_ok] at hresolve
    obtain ⟨addrs,-,hresolve⟩ := hresolve
    split at hresolve
    · split at hresolve <;> cases hresolve
    · obtain rfl := Fallible.pure_ok.mp hresolve
      exact (List.mem_filter.mp hmem).2
  · intro h
    refine ⟨fun _ => .ok [⟨ip,443⟩],"",[⟨ip,443⟩],443,?_,List.mem_singleton.mpr rfl⟩
    simp [resolve,h]

section Blocks

variable {v4 : Ipv4Addr}

def dotted (a b c d : Nat) : Nat := a * 2 ^ 24 + b * 2 ^ 16 + c * 2 ^ 8 + d

def loopbackBlock : Block := ⟨32,8,dotted 127 0 0 0,by decide⟩

def privateBlocks : List Block :=
  [⟨32,8,dotted 10 0 0 0,by decide⟩,⟨32,12,dotted 172 16 0 0,by decide⟩,
    ⟨32,16,dotted 192 168 0 0,by decide⟩]

def linkLocalBlock : Block := ⟨32,16,dotted 169 254 0 0,by decide⟩

def broadcastBlock : Block := ⟨32,32,dotted 255 255 255 255,by decide⟩

def multicastBlock : Block := ⟨32,4,dotted 224 0 0 0,by decide⟩

def thisNetworkBlock : Block := ⟨32,8,dotted 0 0 0 0,by decide⟩

def sharedBlock : Block := ⟨32,10,dotted 100 64 0 0,by decide⟩

def specialBlocks : List Block :=
  privateBlocks ++ [loopbackBlock,linkLocalBlock,broadcastBlock,multicastBlock,thisNetworkBlock,
    sharedBlock]

def Ipv4Addr.Special (v4 : Ipv4Addr) : Prop := ∃ block ∈ specialBlocks, block.Contains v4.toNat

theorem octet_eq {x y : UInt8} : x = y ↔ x.toNat = y.toNat := UInt8.toNat_inj.symm

theorem Ipv4Addr.octets_lt (v4 : Ipv4Addr) :
    v4.a.toNat < 256 ∧ v4.b.toNat < 256 ∧ v4.c.toNat < 256 ∧ v4.d.toNat < 256 :=
  ⟨v4.a.toNat_lt_size,v4.b.toNat_lt_size,v4.c.toNat_lt_size,v4.d.toNat_lt_size⟩

theorem isLoopback_iff : v4.isLoopback = true ↔ loopbackBlock.Contains v4.toNat := by
  obtain ⟨ha,hb,hc,hd⟩ := v4.octets_lt
  simp only [Ipv4Addr.isLoopback,beq_iff_eq,octet_eq,Block.contains_iff,loopbackBlock,Block.host,
    dotted,Ipv4Addr.toNat,UInt8.reduceToNat]
  omega

theorem isPrivate_iff : v4.isPrivate = true ↔ ∃ block ∈ privateBlocks, block.Contains v4.toNat := by
  obtain ⟨ha,hb,hc,hd⟩ := v4.octets_lt
  simp only [Ipv4Addr.isPrivate,Bool.or_eq_true,Bool.and_eq_true,decide_eq_true_eq,beq_iff_eq,
    octet_eq,UInt8.le_iff_toNat_le,privateBlocks,List.mem_cons,List.not_mem_nil,or_false,
    exists_eq_or_imp,exists_eq_left,Block.contains_iff,Block.host,dotted,Ipv4Addr.toNat,
    UInt8.reduceToNat]
  omega

theorem isLinkLocal_iff : v4.isLinkLocal = true ↔ linkLocalBlock.Contains v4.toNat := by
  obtain ⟨ha,hb,hc,hd⟩ := v4.octets_lt
  simp only [Ipv4Addr.isLinkLocal,Bool.and_eq_true,beq_iff_eq,octet_eq,Block.contains_iff,
    linkLocalBlock,Block.host,dotted,Ipv4Addr.toNat,UInt8.reduceToNat]
  omega

theorem isBroadcast_iff : v4.isBroadcast = true ↔ broadcastBlock.Contains v4.toNat := by
  obtain ⟨ha,hb,hc,hd⟩ := v4.octets_lt
  obtain ⟨a,b,c,d⟩ := v4
  simp only [Ipv4Addr.isBroadcast,beq_iff_eq,Ipv4Addr.mk.injEq,octet_eq,Block.contains_iff,
    broadcastBlock,Block.host,dotted,Ipv4Addr.toNat,UInt8.reduceToNat] at *
  omega

theorem isMulticast_iff : v4.isMulticast = true ↔ multicastBlock.Contains v4.toNat := by
  obtain ⟨ha,hb,hc,hd⟩ := v4.octets_lt
  simp only [Ipv4Addr.isMulticast,Bool.and_eq_true,decide_eq_true_eq,UInt8.le_iff_toNat_le,
    Block.contains_iff,multicastBlock,Block.host,dotted,Ipv4Addr.toNat,UInt8.reduceToNat]
  omega

theorem thisNetwork_iff : (v4.a == 0) = true ↔ thisNetworkBlock.Contains v4.toNat := by
  obtain ⟨ha,hb,hc,hd⟩ := v4.octets_lt
  simp only [beq_iff_eq,octet_eq,Block.contains_iff,thisNetworkBlock,Block.host,dotted,
    Ipv4Addr.toNat,UInt8.reduceToNat]
  omega

theorem shared_iff : (v4.a == 100 && v4.b &&& 0xc0 == 64) = true ↔
    sharedBlock.Contains v4.toNat := by
  obtain ⟨ha,hb,hc,hd⟩ := v4.octets_lt
  have hmask : v4.b.toNat &&& 192 = 64 ↔ 64 ≤ v4.b.toNat ∧ v4.b.toNat < 128 :=
    @netmask_iff 8 6 v4.b.toNat 64 (by decide) hb (by decide)
  simp only [Bool.and_eq_true,beq_iff_eq,octet_eq,UInt8.toNat_and,UInt8.reduceToNat,hmask,
    Block.contains_iff,sharedBlock,Block.host,dotted,Ipv4Addr.toNat]
  omega

theorem allowed_v4_iff : ipAllowed (.v4 v4) false = true ↔ ¬v4.Special := by
  have hblocks : v4.Special ↔ (((((v4.isLoopback = true ∨ v4.isPrivate = true) ∨
      v4.isLinkLocal = true) ∨ v4.isBroadcast = true) ∨ v4.isMulticast = true) ∨
      (v4.a == 0) = true) ∨ (v4.a == 100 && v4.b &&& 0xc0 == 64) = true := by
    rw [isLoopback_iff,isPrivate_iff,isLinkLocal_iff,isBroadcast_iff,isMulticast_iff,
      thisNetwork_iff,shared_iff,Ipv4Addr.Special,specialBlocks]
    simp only [List.mem_append,List.mem_cons,List.not_mem_nil,or_false,or_and_right,exists_or,
      exists_eq_left]
    grind
  rw [hblocks]
  simp only [ipAllowed,IpAddr.judged,Bool.false_eq_true,if_false,Bool.not_eq_true',← Bool.not_eq_true,
    Bool.or_eq_true]

end Blocks

section Embedded

variable {v4 : Ipv4Addr} {v6 : Ipv6Addr}

def Ipv4Addr.Mapped (v4 : Ipv4Addr) (v6 : Ipv6Addr) : Prop := v6.toNat = 0xffff * 2 ^ 32 + v4.toNat

def Ipv4Addr.Compatible (v4 : Ipv4Addr) (v6 : Ipv6Addr) : Prop := v6.toNat = v4.toNat

def Ipv4Addr.Nat64 (v4 : Ipv4Addr) (v6 : Ipv6Addr) : Prop := v6.toNat = 0x64ff9b * 2 ^ 96 + v4.toNat

def Ipv4Addr.SixToFour (v4 : Ipv4Addr) (v6 : Ipv6Addr) : Prop :=
  v6.toNat / 2 ^ 80 = 0x2002 * 2 ^ 32 + v4.toNat

def mappedBlock : Block := ⟨128,96,0xffff * 2 ^ 32,by decide⟩

def specialBlocks6 : List Block :=
  [⟨128,128,1,by decide⟩,⟨128,128,0,by decide⟩,⟨128,8,0xff00 * 2 ^ 112,by decide⟩,
    ⟨128,7,0xfc00 * 2 ^ 112,by decide⟩,⟨128,10,0xfe80 * 2 ^ 112,by decide⟩]

theorem segment_eq {x y : UInt16} : x = y ↔ x.toNat = y.toNat := UInt16.toNat_inj.symm

theorem Ipv6Addr.segments_lt (v6 : Ipv6Addr) :
    (v6.s0.toNat < 65536 ∧ v6.s1.toNat < 65536 ∧ v6.s2.toNat < 65536 ∧ v6.s3.toNat < 65536) ∧
    v6.s4.toNat < 65536 ∧ v6.s5.toNat < 65536 ∧ v6.s6.toNat < 65536 ∧ v6.s7.toNat < 65536 :=
  ⟨⟨v6.s0.toNat_lt_size,v6.s1.toNat_lt_size,v6.s2.toNat_lt_size,v6.s3.toNat_lt_size⟩,
    v6.s4.toNat_lt_size,v6.s5.toNat_lt_size,v6.s6.toNat_lt_size,v6.s7.toNat_lt_size⟩

theorem high_toNat (s : UInt16) : (Ipv6Addr.high s).toNat = s.toNat / 256 := by
  have hs : s.toNat < 65536 := s.toNat_lt_size
  rw [Ipv6Addr.high,UInt8.toNat_ofNat']
  omega

theorem low_toNat (s : UInt16) : (Ipv6Addr.low s).toNat = s.toNat % 256 := by
  rw [Ipv6Addr.low,UInt8.toNat_ofNat']
  omega

theorem carried_toNat (v6 : Ipv6Addr) :
    (⟨Ipv6Addr.high v6.s6,Ipv6Addr.low v6.s6,Ipv6Addr.high v6.s7,Ipv6Addr.low v6.s7⟩ :
      Ipv4Addr).toNat = v6.s6.toNat * 2 ^ 16 + v6.s7.toNat := by
  simp only [Ipv4Addr.toNat,high_toNat,low_toNat]
  omega

theorem Ipv4Addr.toNat_inj {x y : Ipv4Addr} (h : x.toNat = y.toNat) : x = y := by
  obtain ⟨ha,hb,hc,hd⟩ := x.octets_lt
  obtain ⟨ha',hb',hc',hd'⟩ := y.octets_lt
  obtain ⟨a,b,c,d⟩ := x
  obtain ⟨a',b',c',d'⟩ := y
  simp only [Ipv4Addr.toNat,Ipv4Addr.mk.injEq,octet_eq] at *
  omega

theorem toIpv4Mapped_iff : v6.toIpv4Mapped = some v4 ↔ v4.Mapped v6 := by
  obtain ⟨⟨h0,h1,h2,h3⟩,h4,h5,h6,h7⟩ := v6.segments_lt
  have hcarried := carried_toNat v6
  unfold Ipv6Addr.toIpv4Mapped Ipv4Addr.Mapped
  simp only [segment_eq,UInt16.reduceToNat]
  constructor
  · intro h
    split at h
    · obtain rfl := Option.some_inj.mp h
      rw [hcarried,Ipv6Addr.toNat]
      omega
    · cases h
  · intro h
    obtain ⟨ha,hb,hc,hd⟩ := v4.octets_lt
    have hsegments : (v6.s0.toNat = 0 ∧ v6.s1.toNat = 0 ∧ v6.s2.toNat = 0 ∧ v6.s3.toNat = 0 ∧
        v6.s4.toNat = 0 ∧ v6.s5.toNat = 65535) ∧ v6.s6.toNat * 2 ^ 16 + v6.s7.toNat = v4.toNat := by
      simp only [Ipv6Addr.toNat,Ipv4Addr.toNat] at h ⊢
      omega
    rw [if_pos hsegments.1]
    exact congrArg some (Ipv4Addr.toNat_inj (hcarried.trans hsegments.2))

theorem unmapped_iff : v6.toIpv4Mapped = none ↔ ¬mappedBlock.Contains v6.toNat := by
  obtain ⟨⟨h0,h1,h2,h3⟩,h4,h5,h6,h7⟩ := v6.segments_lt
  unfold Ipv6Addr.toIpv4Mapped
  simp only [segment_eq,UInt16.reduceToNat,Block.contains_iff,mappedBlock,Block.host,Ipv6Addr.toNat]
  split
  · simp only [reduceCtorEq,false_iff,not_not]
    omega
  · simp only [true_iff]
    omega

theorem allowed_v6_iff (h : ¬mappedBlock.Contains v6.toNat) :
    ipAllowed (.v6 v6) false = true ↔ ∀ block ∈ specialBlocks6, ¬block.Contains v6.toNat := by
  obtain ⟨⟨h0,h1,h2,h3⟩,h4,h5,h6,h7⟩ := v6.segments_lt
  have hmulticast : v6.s0.toNat &&& 0xff00 = 0xff00 ↔ 0xff00 ≤ v6.s0.toNat ∧ v6.s0.toNat < 0x10000 :=
    @netmask_iff 16 8 v6.s0.toNat 0xff00 (by decide) h0 (by decide)
  have hlocal : v6.s0.toNat &&& 0xfe00 = 0xfc00 ↔ 0xfc00 ≤ v6.s0.toNat ∧ v6.s0.toNat < 0xfe00 :=
    @netmask_iff 16 9 v6.s0.toNat 0xfc00 (by decide) h0 (by decide)
  have hlink : v6.s0.toNat &&& 0xffc0 = 0xfe80 ↔ 0xfe80 ≤ v6.s0.toNat ∧ v6.s0.toNat < 0xfec0 :=
    @netmask_iff 16 6 v6.s0.toNat 0xfe80 (by decide) h0 (by decide)
  have hjudged : (IpAddr.v6 v6).judged = .v6 v6 := by
    rw [IpAddr.judged,unmapped_iff.mpr h]
    rfl
  have htests : ipAllowed (.v6 v6) false = true ↔ ¬((((v6.isLoopback = true ∨
      v6.isUnspecified = true) ∨ v6.isMulticast = true) ∨ (v6.s0 &&& 0xfe00 == 0xfc00) = true) ∨
      (v6.s0 &&& 0xffc0 == 0xfe80) = true) := by
    simp only [ipAllowed,hjudged,Bool.false_eq_true,if_false,Bool.not_eq_true',← Bool.not_eq_true,
      Bool.or_eq_true]
  rw [htests]
  simp only [Ipv6Addr.isLoopback,Ipv6Addr.isUnspecified,Ipv6Addr.isMulticast,beq_iff_eq,
    segment_eq,UInt16.toNat_and,UInt16.reduceToNat,hmulticast,hlocal,hlink,specialBlocks6,
    List.forall_mem_cons,List.not_mem_nil,false_imp_iff,forall_true_iff,and_true,
    Block.contains_iff,Block.host]
  obtain ⟨s0,s1,s2,s3,s4,s5,s6,s7⟩ := v6
  simp only [Ipv6Addr.mk.injEq,segment_eq,UInt16.reduceToNat,Ipv6Addr.toNat] at *
  omega

theorem mapped_allowed (h : v4.Mapped v6) (loopback : Bool) :
    ipAllowed (.v6 v6) loopback = ipAllowed (.v4 v4) loopback := by
  have hjudged : (IpAddr.v6 v6).judged = (IpAddr.v4 v4).judged := by
    simp only [IpAddr.judged,toIpv4Mapped_iff.mpr h,Option.map_some,Option.getD_some]
  rw [ipAllowed,hjudged]
  rfl

theorem compatible_allowed (h : v4.Compatible v6) : ipAllowed (.v6 v6) false = true ↔ 1 < v4.toNat := by
  obtain ⟨ha,hb,hc,hd⟩ := v4.octets_lt
  have hlt : v6.toNat < 2 ^ 32 := by
    rw [h,Ipv4Addr.toNat]
    omega
  have hplain : ¬mappedBlock.Contains v6.toNat := by
    simp only [Block.contains_iff,mappedBlock,Block.host]
    omega
  rw [allowed_v6_iff hplain,← h]
  simp only [specialBlocks6,List.forall_mem_cons,List.not_mem_nil,false_imp_iff,forall_true_iff,
    and_true,Block.contains_iff,Block.host]
  omega

theorem nat64_allowed (h : v4.Nat64 v6) : ipAllowed (.v6 v6) false = true := by
  obtain ⟨ha,hb,hc,hd⟩ := v4.octets_lt
  have hvalue : v6.toNat = 0x64ff9b * 2 ^ 96 + (v4.a.toNat * 2 ^ 24 + v4.b.toNat * 2 ^ 16 +
      v4.c.toNat * 2 ^ 8 + v4.d.toNat) := h
  have hplain : ¬mappedBlock.Contains v6.toNat := by
    simp only [Block.contains_iff,mappedBlock,Block.host]
    omega
  rw [allowed_v6_iff hplain]
  simp only [specialBlocks6,List.forall_mem_cons,List.not_mem_nil,false_imp_iff,forall_true_iff,
    and_true,Block.contains_iff,Block.host]
  omega

theorem sixToFour_allowed (h : v4.SixToFour v6) : ipAllowed (.v6 v6) false = true := by
  obtain ⟨ha,hb,hc,hd⟩ := v4.octets_lt
  have hvalue : v6.toNat / 2 ^ 80 = 0x2002 * 2 ^ 32 + (v4.a.toNat * 2 ^ 24 + v4.b.toNat * 2 ^ 16 +
      v4.c.toNat * 2 ^ 8 + v4.d.toNat) := h
  have hplain : ¬mappedBlock.Contains v6.toNat := by
    simp only [Block.contains_iff,mappedBlock,Block.host]
    omega
  rw [allowed_v6_iff hplain]
  simp only [specialBlocks6,List.forall_mem_cons,List.not_mem_nil,false_imp_iff,forall_true_iff,
    and_true,Block.contains_iff,Block.host]
  omega

theorem modes_disjoint (ip : IpAddr) : ¬(ipAllowed ip true = true ∧ ipAllowed ip false = true) := by
  rintro ⟨hloop,hplain⟩
  unfold ipAllowed at hloop hplain
  simp only [if_true,Bool.false_eq_true,if_false] at hloop hplain
  cases hj : ip.judged with
  | v4 v4 =>
    rw [hj] at hloop hplain
    simp [show v4.isLoopback = true from hloop] at hplain
  | v6 v6 =>
    rw [hj] at hloop hplain
    simp [show v6.isLoopback = true from hloop] at hplain

theorem filter_judges_embedded :
    (∀ ip, ¬(GuardedResolver.Allows ⟨true⟩ ip ∧ GuardedResolver.Allows ⟨false⟩ ip)) ∧
    (∀ v4 : Ipv4Addr, (GuardedResolver.Allows ⟨false⟩ (.v4 v4) ↔ ¬v4.Special) ∧
      (∀ v6, v4.Mapped v6 → (GuardedResolver.Allows ⟨false⟩ (.v6 v6) ↔ ¬v4.Special)) ∧
      (∀ v6, v4.Compatible v6 → (GuardedResolver.Allows ⟨false⟩ (.v6 v6) ↔ 1 < v4.toNat)) ∧
      ∀ v6, v4.Nat64 v6 ∨ v4.SixToFour v6 → GuardedResolver.Allows ⟨false⟩ (.v6 v6)) := by
  simp only [GuardedResolver.allows_iff]
  refine ⟨modes_disjoint,?_⟩
  intro v4
  refine ⟨allowed_v4_iff,?_,fun v6 => compatible_allowed,?_⟩
  · intro v6 h
    rw [mapped_allowed h]
    exact allowed_v4_iff
  · rintro v6 (h | h)
    · exact nat64_allowed h
    · exact sixToFour_allowed h

theorem nat64_loopback_allowed : ¬∀ (v4 : Ipv4Addr) (v6 : Ipv6Addr), v4.Special → v4.Nat64 v6 →
    ¬GuardedResolver.Allows ⟨false⟩ (.v6 v6) := by
  intro hall
  have hspecial : (⟨127,0,0,1⟩ : Ipv4Addr).Special := ⟨loopbackBlock,by simp [specialBlocks],by decide⟩
  refine hall ⟨127,0,0,1⟩ ⟨0x64,0xff9b,0,0,0,0,0x7f00,1⟩ hspecial (by unfold Ipv4Addr.Nat64; decide) ?_
  exact GuardedResolver.allows_iff.mpr (by decide)

end Embedded

end MurlSystem
