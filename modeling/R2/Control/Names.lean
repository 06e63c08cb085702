import Mathlib.Data.Nat.Basic
import Mathlib.Tactic.Common

namespace R2.Names

def encapMux : String := "encapmux"
def l3Ipv4Parse : String := "l3_ipv4_parse"
def l3Ipv4Fwd : String := "l3_ipv4_fwd"
def rxTx (ifindex : Nat) : String := "rx_tx:" ++ toString ifindex
def l2EthDecap (ifindex : Nat) : String := "l2_eth_decap:" ++ toString ifindex
def l2EthEncap (ifindex : Nat) : String := "l2_eth_encap:" ++ toString ifindex

end R2.Names
