import SdnQuagga.BgpCommunitySets
import SdnQuagga.IsisRoute
import SdnQuagga.OspfDrElection
import SdnQuagga.OspfSpfRun
import SdnQuagga.BgpOpenSafe
import SdnQuagga.BgpUpdateRefused
import SdnQuagga.BgpAspathHops
import SdnQuagga.BgpAspathShared
import SdnQuagga.BgpBestSelection
import SdnQuagga.RouteTableMap
import SdnQuagga.BgpPcountRuns
import SdnQuagga.RouteMapRecursion
import SdnQuagga.StreamSane
import SdnQuagga.OspfLsAckDelivered
import SdnQuagga.OspfLsUpdFlush
import SdnQuagga.OspfSent
import SdnQuagga.Ospf6LsaCompare
import SdnQuagga.BabelExchange
import SdnQuagga.BabelHello
import SdnQuagga.BgpNlri
import SdnQuagga.OspfLsdb
import SdnQuagga.Checksum
import SdnQuagga.PrefixText
import SdnQuagga.PqueueRuns
import SdnQuagga.PrefixList
